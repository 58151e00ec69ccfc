import TwoWire.Bench
import TwoWire.Program.Run
/-!
# States of the bench

What holds of a bench from its making on, whatever is attached to it and whatever access is made to
it: a controller that does something keeps the bus active, and is stalled only while it does. So an
idle controller is never stalled. It is also the bus master exactly while it does something, it has
received a byte only while it reads, and it latches two kinds of error.
-/
namespace TwoWire.Bench

structure Coherent (b : Bench) : Prop where
  active : b.mode ≠ .idle → b.busActive = true
  stalls : b.stalled = true → b.mode ≠ .idle

theorem coherent_empty : Coherent {} := ⟨nofun, nofun⟩

variable {b : Bench}

theorem Coherent.congr {b' : Bench} (h : Coherent b) (hmode : b'.mode = b.mode)
    (hactive : b'.busActive = b.busActive) (hstalled : b'.stalled = b.stalled) : Coherent b' where
  active := by rw [hmode, hactive]; exact h.active
  stalls := by rw [hmode, hstalled]; exact h.stalls

theorem Coherent.attach (h : Coherent b) (address : UInt8) (device : Device) :
    Coherent (b.attach address device) := h.congr rfl rfl rfl

theorem Coherent.wedge (h : Coherent b) (address : UInt8) : Coherent (b.wedge address) :=
  ⟨fun _ => rfl, h.stalls⟩

theorem heldPulses_wedge_ne_zero (b : Bench) (holder : UInt8) :
    (b.wedge holder).heldPulses ≠ 0 := by
  simp only [wedge]
  cases b.slave? holder with
  | none => simp
  | some s => simp only [Option.elim_some]; omega

/-! ## The controller -/

theorem coherent_release (b : Bench) : Coherent b.release := ⟨fun h => absurd rfl h, nofun⟩

/-- A stall leaves the mode as it is, so it must not come up while the controller is idle. -/
theorem Coherent.stall (h : Coherent b) (hm : b.mode ≠ .idle) : Coherent b.stall :=
  ⟨h.active, fun _ => hm⟩

/-! ## Accesses -/

/-- What an access does to a bench, told apart by what it means to the controller and to the lines. -/
inductive Effect (b : Bench) : Access → Bench → Prop
  /-- The board around the controller is set. -/
  | set {request : Access} {clockOn unmasked padsToBus sclLow sdaLow : Bool} {edge : Latch}
      {tally : Tally} (claims : tally.claims = b.tally.claims)
      (pulses : tally.pulses = b.tally.pulses) :
      Effect b request { b with
        clockOn := clockOn
        unmasked := unmasked
        edge := edge
        padsToBus := padsToBus
        sclLow := sclLow
        sdaLow := sdaLow
        tally := tally }
  | lineClaimed {id : UInt32} :
      Effect b (.claimLine id) { b with
        claimed := true
        tally := { b.tally with claims := b.tally.claims + 1 } }
  | lineReleased {id : UInt32} : Effect b (.releaseLine id) { b with claimed := false }
  | pulsed (low : b.sclLow = true) :
      Effect b (.turnPin scl .input) { b with
        sclLow := false
        heldPulses := b.heldPulses - 1
        tally := { b.tally with pulses := b.tally.pulses + 1 } }
  | padsLost : Effect b (.routePads false) (b.routePads false)
  | sampled : Effect b (.readRegister .status) { b with errors := 0 }
  | pulled : Effect b (.readRegister .readData) b.pullByte.2
  | pushed {word : UInt32} : Effect b (.writeRegister .writeData word) (b.pushWord word)
  | divided {word : UInt32} :
      Effect b (.writeRegister .clockControl word) { b with clockControl := word }

theorem Effect.none (b : Bench) (request : Access) : Effect b request b := .set rfl rfl

theorem effect_readRegister (b : Bench) (register : Register) :
    Effect b (.readRegister register) (b.readRegister register).2 := by
  unfold readRegister
  split
  case isFalse => exact .none b _
  cases register with
  | status => exact .sampled
  | readData => exact .pulled
  | _ => exact .none b _

theorem effect_writeRegister (b : Bench) (register : Register) (word : UInt32) :
    Effect b (.writeRegister register word) (b.writeRegister register word) := by
  unfold writeRegister
  split
  case isFalse => exact .none b _
  cases register with
  | writeData => exact .pushed
  | clockControl => exact .divided
  | _ => exact .none b _

theorem effect_turnPin (b : Bench) (pin : UInt32) (direction : Direction) :
    Effect b (.turnPin pin direction) (b.turnPin pin direction) := by
  cases direction with
  | output => exact .none b _
  | input =>
    unfold turnPin
    dsimp only
    split
    case isTrue hpulse =>
      obtain ⟨rfl, hlow⟩ := hpulse
      exact .pulsed hlow
    case isFalse => split <;> exact .set rfl rfl

/-- What holds after each effect, holds after every access. -/
theorem effect_respond (b : Bench) (request : Access) : Effect b request (respond request b).2 := by
  cases request with
  | readRegister register => exact effect_readRegister b register
  | writeRegister register word => exact effect_writeRegister b register word
  | turnPin pin direction => exact effect_turnPin b pin direction
  | enableClock id =>
    simp only [respond, enableClock]
    split <;> exact .set rfl rfl
  | disableClock id =>
    simp only [respond, disableClock]
    split <;> exact .set rfl rfl
  | claimLine id =>
    simp only [respond, claimLine]
    split
    · split
      · exact .none b _
      · exact .lineClaimed
    · exact .none b _
  | releaseLine id => exact .lineReleased
  | takePending id =>
    simp only [respond, takePending]
    split <;> exact .set rfl rfl
  | drivePin pin high =>
    simp only [respond, drivePin]
    split
    · exact .set rfl rfl
    · split <;> exact .set rfl rfl
  | routePads toBus =>
    cases toBus with
    | true => exact .set rfl rfl
    | false => exact .padsLost
  | _ => exact .set rfl rfl

/-! ## Queues and errors -/

/-- The error bits of a bench, told by which of the two kinds are among them. -/
def errorBits (nacked invalid : Bool) : UInt32 :=
  (if nacked then Status.Flag.nacked.mask else 0) |||
    (if invalid then Status.Flag.invalidWrite.mask else 0)

theorem errorBits_or_nacked (nacked invalid : Bool) :
    errorBits nacked invalid ||| Status.Flag.nacked.mask = errorBits true invalid := by
  cases nacked <;> cases invalid <;> decide

theorem errorBits_or_invalidWrite (nacked invalid : Bool) :
    errorBits nacked invalid ||| Status.Flag.invalidWrite.mask = errorBits nacked true := by
  cases nacked <;> cases invalid <;> decide

/-- Only bits of the two kinds are latched. -/
def Latches (errors : UInt32) : Prop := ∃ nacked invalid, errors = errorBits nacked invalid

theorem latches_zero : Latches 0 := ⟨false, false, rfl⟩

/-- What the controller is doing stays as it is. -/
structure Undisturbed (b b' : Bench) : Prop where
  mode : b'.mode = b.mode
  busActive : b'.busActive = b.busActive
  stalled : b'.stalled = b.stalled
  master : b'.master = b.master
  received : b'.received = b.received
  errors : b'.errors = b.errors

structure Consistent (b : Bench) : Prop extends Coherent b where
  master : b.master = decide (b.mode ≠ .idle)
  received : b.received.isSome → b.mode = .read
  latched : Latches b.errors

namespace Consistent

theorem undisturbed {b' : Bench} (h : Consistent b) (hsame : Undisturbed b b') :
    Consistent b' where
  toCoherent := h.toCoherent.congr hsame.mode hsame.busActive hsame.stalled
  master := by rw [hsame.master, hsame.mode, h.master]
  received := by rw [hsame.received, hsame.mode]; exact h.received
  latched := by rw [hsame.errors]; exact h.latched

/-- A controller that does not read has received nothing. -/
theorem received_eq_none (h : Consistent b) (hm : b.mode ≠ .read) : b.received = none := by
  rw [← Option.not_isSome_iff_eq_none]
  exact fun hsome => hm (h.received hsome)

/-- A controller that lets go of the bus must not leave a received byte behind. -/
theorem release (hr : b.received = none) (hl : Latches b.errors) : Consistent b.release where
  toCoherent := coherent_release b
  master := rfl
  received hsome := by simp [Bench.release, hr] at hsome
  latched := hl

theorem stall (h : Consistent b) (hm : b.mode ≠ .idle) : Consistent b.stall :=
  ⟨h.toCoherent.stall hm, h.master, h.received, h.latched⟩

theorem fetch (h : Consistent b) (hm : b.mode = .read) : Consistent b.fetch := by
  unfold Bench.fetch
  split
  · exact h.stall (by simp [hm])
  · exact ⟨h.toCoherent.congr rfl rfl rfl, h.master, fun _ => hm, h.latched⟩

theorem address (h : Consistent b) (hs : b.stalled = false) (target : UInt8)
    (reading last : Bool) : Consistent (b.address target reading last) := by
  unfold Bench.address
  dsimp only
  split
  case isFalse =>
    obtain ⟨nacked, invalid, herrors⟩ := h.latched
    refine release rfl ⟨true, invalid, ?_⟩
    change b.errors ||| Status.Flag.nacked.mask = _
    rw [herrors, errorBits_or_nacked]
  split
  case isTrue => exact release rfl h.latched
  have hnot : ∀ {p : Prop}, b.stalled = true → p := by simp [hs]
  split
  case isTrue =>
    apply fetch _ rfl
    exact ⟨⟨fun _ => rfl, hnot⟩, rfl, fun _ => rfl, h.latched⟩
  case isFalse => exact ⟨⟨fun _ => rfl, hnot⟩, rfl, nofun, h.latched⟩

theorem data (h : Consistent b) (byte : UInt8) (last : Bool) : Consistent (b.data byte last) := by
  unfold Bench.data
  split
  case h_1 => exact h
  case h_2 hm =>
    split
    · exact h.stall (by simp [hm])
    · cases last with
      | true =>
        have hr : b.received = none := h.received_eq_none (by simp [hm])
        exact (release (b := b.deliver byte) hr h.latched).undisturbed ⟨rfl, rfl, rfl, rfl, rfl, rfl⟩
      | false => exact h.undisturbed ⟨rfl, rfl, rfl, rfl, rfl, rfl⟩
  case h_3 hm =>
    split
    case isFalse => exact h
    split
    · exact h.undisturbed ⟨rfl, rfl, rfl, rfl, rfl, rfl⟩
    · obtain ⟨nacked, invalid, herrors⟩ := h.latched
      refine ⟨h.toCoherent.congr rfl rfl rfl, h.master, h.received, nacked, true, ?_⟩
      change b.errors ||| Status.Flag.invalidWrite.mask = _
      rw [herrors, errorBits_or_invalidWrite]

theorem pushWord (h : Consistent b) (word : UInt32) : Consistent (b.pushWord word) := by
  unfold Bench.pushWord
  dsimp only
  split
  case isTrue => exact h
  rename_i hs
  split
  · exact h.address (by simpa using hs) _ _ _
  · exact h.data _ _

theorem pullByte (h : Consistent b) : Consistent b.pullByte.2 := by
  have hrest : Consistent { b with received := none } :=
    ⟨h.toCoherent.congr rfl rfl rfl, h.master, nofun, h.latched⟩
  unfold Bench.pullByte
  dsimp only
  split
  case isFalse => exact hrest
  rename_i hread
  split
  · exact hrest.fetch hread.1
  · refine Consistent.fetch ?_ hread.1
    exact hrest.undisturbed ⟨rfl, rfl, rfl, rfl, rfl, rfl⟩
  · exact release rfl h.latched

theorem effect {request : Access} {b' : Bench} (h : Consistent b) (heffect : Effect b request b') :
    Consistent b' := by
  cases heffect with
  | padsLost =>
    have hreleased : Consistent (Bench.release { b with received := none }) := release rfl h.latched
    exact hreleased.undisturbed ⟨rfl, rfl, rfl, rfl, rfl, rfl⟩
  | sampled => exact ⟨h.toCoherent.congr rfl rfl rfl, h.master, h.received, latches_zero⟩
  | pulled => exact h.pullByte
  | pushed => exact h.pushWord _
  | _ => exact h.undisturbed ⟨rfl, rfl, rfl, rfl, rfl, rfl⟩

/-- Every access leaves a bench consistent. -/
theorem respond (h : Consistent b) (request : Access) :
    Consistent (Bench.respond request b).2 :=
  h.effect (effect_respond b request)

/-- A controller that keeps a free bus does nothing. -/
theorem idle_of_free (h : Consistent b) (hfree : b.isActive = false) : b.mode = .idle := by
  apply Decidable.byContradiction
  intro hm
  simp [isActive, h.active hm] at hfree

end Consistent

/-! ## The board around the controller -/

/-- Clock, interrupt line and pads are set as before. -/
structure Fitted (b b' : Bench) : Prop where
  clockOn : b'.clockOn = b.clockOn
  unmasked : b'.unmasked = b.unmasked
  claimed : b'.claimed = b.claimed
  clockControl : b'.clockControl = b.clockControl
  padsToBus : b'.padsToBus = b.padsToBus
  sclLow : b'.sclLow = b.sclLow
  sdaLow : b'.sdaLow = b.sdaLow

namespace Fitted

theorem refl (b : Bench) : Fitted b b := by constructor <;> rfl

theorem trans {b b' b'' : Bench} (h : Fitted b b') (h' : Fitted b' b'') : Fitted b b'' where
  clockOn := h'.clockOn.trans h.clockOn
  unmasked := h'.unmasked.trans h.unmasked
  claimed := h'.claimed.trans h.claimed
  clockControl := h'.clockControl.trans h.clockControl
  padsToBus := h'.padsToBus.trans h.padsToBus
  sclLow := h'.sclLow.trans h.sclLow
  sdaLow := h'.sdaLow.trans h.sdaLow

theorem fetch (b : Bench) : Fitted b b.fetch := by
  unfold Bench.fetch
  split <;> constructor <;> rfl

theorem address (b : Bench) (target : UInt8) (reading last : Bool) :
    Fitted b (b.address target reading last) := by
  unfold Bench.address
  dsimp only
  split
  case isFalse => constructor <;> rfl
  split
  case isTrue => constructor <;> rfl
  split
  case isTrue =>
    refine trans ?_ (fetch { b.begin.select target with mode := .read })
    constructor <;> rfl
  case isFalse => constructor <;> rfl

theorem data (b : Bench) (byte : UInt8) (last : Bool) : Fitted b (b.data byte last) := by
  unfold Bench.data
  split
  case h_1 => exact refl b
  case h_2 =>
    split
    · constructor <;> rfl
    · cases last <;> constructor <;> rfl
  case h_3 =>
    split
    case isFalse => exact refl b
    split <;> constructor <;> rfl

/-- The words that are pushed do not change how the board is set. -/
theorem pushWord (b : Bench) (word : UInt32) : Fitted b (b.pushWord word) := by
  unfold Bench.pushWord
  dsimp only
  split
  · exact refl b
  split
  · exact address b _ _ _
  · exact data b _ _

theorem pullByte (b : Bench) : Fitted b b.pullByte.2 := by
  unfold Bench.pullByte
  dsimp only
  split
  case isFalse => constructor <;> rfl
  split
  · refine trans ?_ (fetch { b with received := none })
    constructor <;> rfl
  · refine trans ?_ (fetch { b with received := none, readEnd := .reached })
    constructor <;> rfl
  · constructor <;> rfl

end Fitted
end TwoWire.Bench
