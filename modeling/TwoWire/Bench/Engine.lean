import TwoWire.Bench.Slave
import TwoWire.BusConfig
import TwoWire.Controller
import TwoWire.Latch
/-!
# The simulated controller

A bench is a board with one controller and any slaves. This module holds its state and what the
controller does with the words of its queues: addresses are acknowledged or refused, data bytes go
to the addressed slave, bytes of a read are fetched one ahead. A slave that stalls holds SDA low,
and a stalled controller ignores everything until the bus is cleared.
-/
namespace TwoWire
namespace Bench

/-- What the controller is doing on the bus. -/
inductive Mode
  | idle
  | write
  | read
  deriving DecidableEq

/-- How near a read is to its end: a stop request takes effect after one more byte. -/
inductive ReadEnd
  | unset
  | announced
  | reached
  deriving DecidableEq

/-- Counts of what happened on the bench. Each grows by one access at a time, the delay by less than
`2 ^ 32`. A bench is part of test builds only: there a count that outgrew its word (32 bits, for the
delay 64) would stop the run and not go round, so no run that ends tells them from natural numbers. -/
structure Tally where
  clockEnables : Nat := 0
  clockDisables : Nat := 0
  unmasks : Nat := 0
  masks : Nat := 0
  claims : Nat := 0
  /-- Start conditions; repeated starts are not counted. -/
  starts : Nat := 0
  /-- Pulses on SCL made by hand. -/
  pulses : Nat := 0
  padSwitches : Nat := 0
  /-- Nanoseconds spent in delays. -/
  delayed : Nat := 0
  deriving DecidableEq

end Bench

structure Bench where
  slaves : ByteTable (Option Bench.Slave) := .fill none
  mode : Bench.Mode := .idle
  /-- The slave addressed last. -/
  target : UInt8 := 0
  /-- Data bytes carried since the target was addressed. -/
  carried : Nat := 0
  /-- The current write has set the slave's pointer. -/
  aimed : Bool := false
  busActive : Bool := false
  master : Bool := false
  stalled : Bool := false
  /-- The byte in the read queue. -/
  received : Option UInt8 := none
  readEnd : Bench.ReadEnd := .unset
  /-- Error bits latched since the last sample. -/
  errors : UInt32 := 0
  /-- Pulses until a slave lets go of SDA; zero while none holds it. It is one, or what the slave
  needs, when SDA is taken, and only goes down from there, so it stays within the slave's word. -/
  heldPulses : Nat := 0
  clockControl : UInt32 := 0
  clockOn : Bool := false
  unmasked : Bool := false
  claimed : Bool := false
  edge : Latch := {}
  padsToBus : Bool := false
  /-- SCL is driven low by hand. -/
  sclLow : Bool := false
  /-- SDA is driven low by hand. -/
  sdaLow : Bool := false
  tally : Bench.Tally := {}
  deriving DecidableEq

namespace Bench

/-- The wiring of every bench. -/
def clock : UInt32 := 17
def line : UInt32 := 11
def scl : UInt32 := 95
def sda : UInt32 := 96

/-- The configuration that fits a bench. -/
def config : BusConfig where
  base := 0
  clock := clock
  line := line
  scl := scl
  sda := sda
  busRate := Speed.fast.rate

def slave? (b : Bench) (address : UInt8) : Option Slave := b.slaves.get address

/-- Change the addressed slave. -/
def onTarget (b : Bench) (f : Slave → Slave) : Bench :=
  { b with slaves := b.slaves.set b.target ((b.slave? b.target).map f) }

/-- Attach a device, in place of one that has the address already. -/
def attach (b : Bench) (address : UInt8) (device : Device) : Bench :=
  { b with slaves := b.slaves.set address (some (.ofDevice device)) }

/-- A slave holds SDA low as if it had lost clocks in the middle of a byte. -/
def wedge (b : Bench) (address : UInt8) : Bench :=
  { b with
    heldPulses := (b.slave? address).elim 1 fun s => max s.holdPulses 1
    busActive := true }

/-- A register of a slave; an address without a slave has zeros. -/
def register (b : Bench) (address register : UInt8) : UInt8 :=
  (b.slave? address).elim 0 fun s => s.registers.get register

def sdaHeld (b : Bench) : Bool := b.heldPulses ≠ 0

/-- The bus is not free, whoever keeps it. -/
def isActive (b : Bench) : Bool := b.busActive || b.sdaHeld

/-! ## The bus -/

def signal (b : Bench) : Bench := { b with edge := b.edge.signal }

/-- Latch an error bit. -/
def latch (b : Bench) (flag : Status.Flag) : Bench := { b with errors := b.errors ||| flag.mask }

/-- The controller lets go of the bus. -/
def release (b : Bench) : Bench :=
  { b with mode := .idle, busActive := false, master := false, stalled := false }

/-- The addressed slave stops taking part and holds SDA, this once. -/
def stall (b : Bench) : Bench :=
  { b.onTarget Slave.calm with stalled := true, heldPulses := 1 }

/-- The addressed slave has had the data bytes after which it stalls. -/
def isStallDue (b : Bench) : Bool :=
  ((b.slave? b.target).bind Slave.stallAfter).any (· ≤ b.carried)

/-- Fetch the next byte of a read into the read queue. -/
def fetch (b : Bench) : Bench :=
  if b.isStallDue then b.stall
  else
    signal { b.onTarget Slave.advance with
      received := (b.slave? b.target).elim b.received fun s => some s.current
      carried := b.carried + 1 }

/-- Give a data byte to the addressed slave: the first one sets its pointer. -/
def deliver (b : Bench) (byte : UInt8) : Bench :=
  { b.onTarget fun s => if b.aimed then s.store byte else s.aim byte with
    aimed := b.aimed || (b.slave? b.target).isSome
    carried := b.carried + 1 }

/-- A slave with this address acknowledges. -/
def acknowledged (b : Bench) (address : UInt8) : Bool :=
  (b.slave? address).any Slave.acknowledges

/-- An acknowledged slave becomes the target. Going on with the same slave keeps the count of its
data bytes. -/
def select (b : Bench) (address : UInt8) : Bench :=
  { b with
    carried := if b.target ≠ address ∨ b.mode = .idle then 0 else b.carried
    target := address
    aimed := false }

/-- Take the bus with a start condition, repeated or not. -/
def begin (b : Bench) : Bench :=
  signal { b with
    tally := { b.tally with
      starts := if b.mode = .idle then b.tally.starts + 1 else b.tally.starts }
    busActive := true
    master := true
    received := none
    readEnd := .unset }

/-- Send an address byte. -/
def address (b : Bench) (target : UInt8) (reading last : Bool) : Bench :=
  let b := b.begin
  if b.acknowledged target then
    let b := b.select target
    if last then b.release
    else if reading then fetch { b with mode := .read }
    else { b with mode := .write }
  else (b.latch .nacked).release

/-- Send a data byte, or a stop request when reading. A second stop request is an error. -/
def data (b : Bench) (byte : UInt8) (last : Bool) : Bench :=
  match b.mode with
  | .idle => b
  | .write =>
    if b.isStallDue then b.stall
    else
      let b := b.deliver byte
      signal (if last then b.release else b)
  | .read =>
    if last then
      if b.readEnd = .unset then { b with readEnd := .announced }
      else signal (b.latch .invalidWrite)
    else b

/-- A word is written into the write queue. -/
def pushWord (b : Bench) (word : UInt32) : Bench :=
  let last := word &&& FifoWord.lastBit != 0
  if b.stalled then b
  else if word &&& FifoWord.addressBit != 0 then
    b.address ((word >>> 1) &&& 0x7f).toUInt8 (word &&& 1 != 0) last
  else b.data word.toUInt8 last

/-- A byte is taken from the read queue, which lets the read go on by one step. -/
def pullByte (b : Bench) : UInt8 × Bench :=
  let rest := { b with received := none }
  (b.received.getD 0,
    if b.mode = .read ∧ !b.stalled then
      match b.readEnd with
      | .unset => rest.fetch
      | .announced => fetch { rest with readEnd := .reached }
      | .reached => rest.release
    else rest)

end Bench
end TwoWire
