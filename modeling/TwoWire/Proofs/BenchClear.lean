import TwoWire.Proofs.BenchPolls
/-!
# Clearing the bench

Taking the pads from the controller makes it drop what it was doing. Every pulse brings a slave that
holds SDA one step nearer to letting go, and the pulses stop as soon as it has. So a bus is cleared
if its slave lets go within the limit, and no slave is changed by it.
-/
namespace TwoWire.Bench
open Program (ends ends_bind_eq)

/-! ## Pins -/

theorem ends_drivePin (b : Bench) (pin : UInt32) (high : Bool) :
    (Program.drivePin pin high).ends respond b = ((), b.drivePin pin high) := rfl

theorem ends_turnPin (b : Bench) (pin : UInt32) (direction : Direction) :
    (Program.turnPin pin direction).ends respond b = ((), b.turnPin pin direction) := rfl

theorem ends_readPin (b : Bench) (pin : UInt32) :
    (Program.readPin pin).ends respond b = (b.readPin pin, b) := rfl

theorem ends_delay (b : Bench) (nanoseconds : UInt32) :
    (Program.delay nanoseconds).ends respond b = ((), b.delay nanoseconds) := rfl

theorem ends_routePads (b : Bench) (toBus : Bool) :
    (Program.routePads toBus).ends respond b = ((), b.routePads toBus) := rfl

/-- The bench after one pulse. -/
def pulsed (b : Bench) : Bench :=
  { b with
    sclLow := false
    sdaLow := false
    heldPulses := b.heldPulses - 1
    tally := { b.tally with pulses := b.tally.pulses + 1, delayed := b.tally.delayed + 20 } }

/-- The bench in the middle of a pulse: SCL has been let go, SDA is still driven. -/
def halfPulsed (b : Bench) : Bench :=
  ((((((b.drivePin scl false).delay 5).drivePin sda false).delay 5).turnPin scl .input).delay 5)

theorem readPin_halfPulsed (b : Bench) : b.halfPulsed.readPin scl = true := by
  have hsda : sda ≠ scl := by decide
  simp only [halfPulsed, drivePin, turnPin, delay, readPin, if_true, hsda, if_false,
    Bool.not_false, and_self]

theorem turnPin_halfPulsed (b : Bench) : (b.halfPulsed.turnPin sda .input).delay 5 = b.pulsed := by
  have hsda : sda ≠ scl := by decide
  simp only [halfPulsed, drivePin, turnPin, delay, pulsed, if_true, hsda, false_and, if_false,
    Bool.not_false, and_self]
  rfl

variable {c : BusClear} {b : Bench}

theorem ends_stretch (h : b.readPin c.scl = true) (nanoseconds : UInt32) :
    (c.stretch nanoseconds).ends respond b = ((), b) := by
  rw [BusClear.stretch, ends_bind_eq (ends_readPin b c.scl), h]
  rfl

theorem ends_pulse (hscl : c.scl = scl) (hsda : c.sda = sda) (b : Bench) (issued : Nat) :
    (c.pulse issued).ends respond b =
      ({ c with state := .pulseClock (issued + 1), clockHigh := true }, b.pulsed) := by
  have hhigh : b.halfPulsed.readPin c.scl = true := by
    rw [hscl]
    exact readPin_halfPulsed b
  rw [BusClear.pulse, hsda, hscl, ends_bind_eq (ends_drivePin _ _ _), ends_bind_eq (ends_delay _ _),
    ends_bind_eq (ends_drivePin _ _ _), ends_bind_eq (ends_delay _ _),
    ends_bind_eq (ends_turnPin _ _ _), ends_bind_eq (ends_delay _ _)]
  change ends respond (c.stretch 20 >>= _) b.halfPulsed = _
  rw [ends_bind_eq (ends_stretch hhigh 20), ends_bind_eq (ends_stretch hhigh 10000),
    ends_bind_eq (ends_readPin _ _), readPin_halfPulsed, ends_bind_eq (ends_turnPin _ _ _),
    ends_bind_eq (ends_delay _ _), turnPin_halfPulsed]
  rfl

/-! ## The procedure -/

theorem ends_run {σ : Type} {hw : Hardware σ} {s s' : σ} {next : BusClear}
    (h : c.step.ends hw s = (next, s')) :
    c.run.ends hw s =
      match next.outcome? with
      | some outcome => ((outcome, next), s')
      | none => next.run.ends hw s' := by
  rw [BusClear.run_eq, ends_bind_eq h]
  cases next.outcome? <;> rfl

/-- The bench `b'` is what `b` comes to when the controller has lost the pads and `issued` pulses
have been made. -/
structure Clocked (b : Bench) (issued : Nat) (b' : Bench) : Prop where
  clockOn : b'.clockOn = b.clockOn
  unmasked : b'.unmasked = b.unmasked
  mode : b'.mode = .idle
  busActive : b'.busActive = false
  master : b'.master = false
  stalled : b'.stalled = false
  errors : b'.errors = 0
  received : b'.received = none
  edge : b'.edge = b.edge
  heldPulses : b'.heldPulses = b.heldPulses - issued
  slaves : b'.slaves = b.slaves
  starts : b'.tally.starts = b.tally.starts
  pulses : b'.tally.pulses = b.tally.pulses + issued

variable {b' : Bench} {issued : Nat}

theorem Clocked.pulsed (h : Clocked b issued b') : Clocked b (issued + 1) b'.pulsed where
  clockOn := h.clockOn
  unmasked := h.unmasked
  mode := h.mode
  busActive := h.busActive
  master := h.master
  stalled := h.stalled
  errors := h.errors
  received := h.received
  edge := h.edge
  heldPulses := by
    change b'.heldPulses - 1 = _
    rw [h.heldPulses, Nat.sub_sub]
  slaves := h.slaves
  starts := h.starts
  pulses := by
    change b'.tally.pulses + 1 = _
    rw [h.pulses, Nat.add_assoc]

/-- An idle controller takes no notice of a word without an address. -/
theorem pushWord_of_idle (hm : b.mode = .idle) {word : UInt32}
    (h : word &&& FifoWord.addressBit = 0) : b.pushWord word = b := by
  unfold pushWord data
  rw [h, hm]
  dsimp only
  split <;> rfl

/-- Once the controller has lost the pads nothing keeps it, and nothing that is pushed matters. -/
theorem ends_unblock (hc : b.clockOn = true) (status : Status) :
    (BusClear.unblock status).ends respond (b.routePads false) = ((), b.routePads false) := by
  have hc' : (b.routePads false).clockOn = true := hc
  unfold BusClear.unblock
  split
  · have hpush := ends_push hc' FifoWord.stop.bits
    rw [pushWord_of_idle rfl rfl] at hpush
    rw [ends_bind_eq hpush, ends_bind_eq (ends_pull hc')]
    rfl
  · split
    · rw [ends_push hc', pushWord_of_idle rfl (FifoWord.data_bits 0xff true).1]
    · rfl

/-- The first sample of the procedure takes the pads from a controller that is busy. -/
theorem ends_probe (hc : b.clockOn = true) (hl : Latches b.errors) (ha : b.isActive = true) :
    ∃ b', c.probe.ends respond b = ({ c with state := .pulseClock 0 }, b') ∧ Clocked b 0 b' := by
  obtain ⟨-, -, -, -, hmeets⟩ := sample_latched hl
  rw [ha] at hmeets
  refine ⟨({ b with errors := 0 } : Bench).routePads false, ?_, ?_⟩
  · rw [BusClear.probe, ends_bind_eq (ends_sample hc), if_pos hmeets,
      ends_bind_eq (ends_routePads _ false)]
    exact ends_bind_eq (ends_unblock (b := { b with errors := 0 }) hc _) _
  · constructor <;> rfl

/-- The pulses end as soon as SDA is free after one of them. -/
theorem ends_pulseClock (hscl : c.scl = scl) (hsda : c.sda = sda)
    (hl : issued < BusClear.pulseLimit) (hfree : c.clockHigh = true → b.sdaLow = false) :
    (c.pulseClock issued).ends respond b =
      if c.clockHigh = true ∧ b.heldPulses = 0 then
        ({ c with state := .restorePads, pulses := issued }, b)
      else ({ c with state := .pulseClock (issued + 1), clockHigh := true }, b.pulsed) := by
  have hpin : b.readPin c.sda = (!b.sdaLow && !b.sdaHeld) := by
    rw [hsda]
    rfl
  have hready : (b.readPin c.sda && c.clockHigh) =
      decide (c.clockHigh = true ∧ b.heldPulses = 0) := by
    rw [hpin]
    unfold sdaHeld
    cases hh : c.clockHigh with
    | true =>
      rw [hfree hh]
      simp
    | false => simp
  rw [BusClear.pulseClock, if_neg (by omega), ends_bind_eq (ends_readPin b c.sda), hready]
  by_cases hend : c.clockHigh = true ∧ b.heldPulses = 0
  · rw [if_pos hend, decide_eq_true hend]
    rfl
  · rw [if_neg hend, decide_eq_false hend]
    exact ends_pulse hscl hsda b issued

/-- How a procedure of `issued` pulses ends. -/
def verdict (b : Bench) (issued : Nat) : ClearOutcome :=
  if b.heldPulses ≤ issued then .cleared issued else .stillBusy

/-- After the pulses the lines have been let go. -/
structure Pulsed (b : Bench) (issued : Nat) (b' : Bench) : Prop extends Clocked b issued b' where
  sclLow : b'.sclLow = false
  sdaLow : b'.sdaLow = false

theorem Clocked.next (h : Clocked b issued b') : Pulsed b (issued + 1) b'.pulsed :=
  ⟨h.pulsed, rfl, rfl⟩

/-- The bus has been clocked and the controller has its pads again. -/
structure Restored (b : Bench) (issued : Nat) (b' : Bench) : Prop extends Pulsed b issued b' where
  padsToBus : b'.padsToBus = true

/-- Handing the pads back shows whether a slave still holds SDA. -/
theorem ends_restore (hc : b.clockOn = true) (h : Pulsed b issued b')
    (hstate : c.state = .restorePads) (hpulses : c.pulses = issued) :
    ∃ c' b'', c.run.ends respond b' = ((verdict b issued, c'), b'') ∧ Restored b issued b'' := by
  let rest : Bench := (b'.routePads true).delay 10
  have hactive : rest.isActive = !decide (b.heldPulses ≤ issued) := by
    change (b'.busActive || decide (b'.heldPulses ≠ 0)) = _
    rw [h.busActive, h.heldPulses, Bool.false_or, ← decide_not, decide_eq_decide]
    omega
  have hbusy : (⟨rest.errors ||| rest.liveBits⟩ : Status).isBusy =
      !decide (b.heldPulses ≤ issued) := by
    have he : rest.errors = 0 := h.errors
    obtain ⟨-, -, -, hbusy⟩ := sample_liveBits rest
    rw [he, UInt32.zero_or, hbusy, hactive]
  have hsample := ends_sample (b := rest) (h.clockOn.trans hc)
  have hstep : c.step.ends respond b' =
      ({ c with state := .done (verdict b issued) }, { rest with errors := 0 }) := by
    rw [BusClear.step, hstate]
    change ends respond c.restore b' = _
    rw [BusClear.restore, ends_bind_eq (ends_routePads _ _), ends_bind_eq (ends_delay _ _),
      ends_bind_eq hsample, hbusy, hpulses]
    unfold verdict
    by_cases hfree : b.heldPulses ≤ issued
    · rw [if_pos hfree, decide_eq_true hfree]
      rfl
    · rw [if_neg hfree, decide_eq_false hfree]
      rfl
  refine ⟨_, _, ends_run hstep, ⟨⟨?_, h.sclLow, h.sdaLow⟩, rfl⟩⟩
  exact ⟨h.clockOn, h.unmasked, h.mode, h.busActive, h.master, h.stalled, rfl, h.received, h.edge,
    h.heldPulses, h.slaves, h.starts, h.pulses⟩

/-- From its first pulse on the procedure makes those that are needed, up to the limit. -/
theorem ends_pulsing (hc : b.clockOn = true) (hscl : c.scl = scl) (hsda : c.sda = sda)
    (left : Nat) (hleft : issued + left = BusClear.pulseLimit) (h : Pulsed b issued b')
    (hstate : c.state = .pulseClock issued) (hhigh : c.clockHigh = true) :
    ∃ total c' b'', c.run.ends respond b' = ((verdict b total, c'), b'') ∧
      total = min (max b.heldPulses issued) BusClear.pulseLimit ∧ Restored b total b'' := by
  have hstep : c.step = c.pulseClock issued := by
    rw [BusClear.step, hstate]
  induction left generalizing c b' issued with
  | zero =>
    have hlimit : (c.pulseClock issued).ends respond b' =
        ({ c with state := .restorePads, pulses := issued }, b') := by
      rw [BusClear.pulseClock, if_pos (by omega)]
      rfl
    obtain ⟨c', b'', hrun, hclocked⟩ :=
      ends_restore (c := { c with state := .restorePads, pulses := issued }) hc h rfl rfl
    refine ⟨issued, c', b'', ?_, by omega, hclocked⟩
    rw [ends_run (hstep ▸ hlimit)]
    exact hrun
  | succ left ih =>
    have hpulse := ends_pulseClock hscl hsda (show issued < BusClear.pulseLimit by omega)
      fun _ => h.sdaLow
    by_cases hfree : b'.heldPulses = 0
    · rw [if_pos ⟨hhigh, hfree⟩] at hpulse
      obtain ⟨c', b'', hrun, hclocked⟩ :=
        ends_restore (c := { c with state := .restorePads, pulses := issued }) hc h rfl rfl
      rw [h.heldPulses] at hfree
      refine ⟨issued, c', b'', ?_, by omega, hclocked⟩
      rw [ends_run (hstep ▸ hpulse)]
      exact hrun
    · rw [if_neg fun hend => hfree hend.2] at hpulse
      rw [h.heldPulses] at hfree
      obtain ⟨total, c', b'', hrun, htotal, hclocked⟩ :=
        ih (c := { c with state := .pulseClock (issued + 1), clockHigh := true }) hscl hsda
          (by omega) h.next rfl rfl rfl
      refine ⟨total, c', b'', ?_, by omega, hclocked⟩
      rw [ends_run (hstep ▸ hpulse)]
      exact hrun

/-- Pulses that it takes to clear the bench, if that many are made. -/
def pulsesNeeded (b : Bench) : Nat := max b.heldPulses 1

theorem ends_run_start (hc : b.clockOn = true) (hl : Latches b.errors) (ha : b.isActive = true) :
    ∃ total c' b', (BusClear.start scl sda).run.ends respond b = ((verdict b total, c'), b') ∧
      total = min b.pulsesNeeded BusClear.pulseLimit ∧ Restored b total b' := by
  let probing : BusClear := { BusClear.start scl sda with state := .probeStatus }
  have hidle : (BusClear.start scl sda).step.ends respond b = (probing, b) := rfl
  obtain ⟨b₁, hprobe, hclocked⟩ := ends_probe (c := probing) hc hl ha
  have hfirst := ends_pulseClock (c := { probing with state := .pulseClock 0 }) (b := b₁)
    rfl rfl (show 0 < BusClear.pulseLimit by decide) fun h => absurd h Bool.false_ne_true
  rw [if_neg fun h => absurd h.1 Bool.false_ne_true] at hfirst
  obtain ⟨total, c', b', hrun, htotal, hend⟩ :=
    ends_pulsing (c := { probing with state := .pulseClock 1, clockHigh := true }) hc rfl rfl 8 rfl
      hclocked.next rfl rfl
  refine ⟨total, c', b', ?_, htotal, hend⟩
  rw [ends_run hidle]
  change probing.run.ends respond b = _
  rw [ends_run (show probing.step.ends respond b = _ from hprobe)]
  change ({ probing with state := .pulseClock 0 } : BusClear).run.ends respond b₁ = _
  rw [ends_run (show ({ probing with state := .pulseClock 0 } : BusClear).step.ends respond b₁ = _
    from hfirst)]
  exact hrun

/-- A bench that is busy is cleared if its slave lets go of SDA within the limit. -/
theorem ends_clear {bus : Bus} (hbus : bus.config = config) (hc : b.clockOn = true)
    (hl : Latches b.errors) (ha : b.isActive = true) :
    ∃ b', (Session.clear bus).ends respond b =
        (if b.heldPulses ≤ BusClear.pulseLimit then .ok () else .error .notReady, b') ∧
      Restored b (min b.pulsesNeeded BusClear.pulseLimit) b' := by
  obtain ⟨total, c', b', hrun, htotal, h⟩ := ends_run_start hc hl ha
  have hscl : bus.config.scl = scl := by rw [hbus]; rfl
  have hsda : bus.config.sda = sda := by rw [hbus]; rfl
  rw [← htotal]
  rw [← hscl, ← hsda] at hrun
  unfold pulsesNeeded at htotal
  unfold verdict at hrun
  by_cases hfree : b.heldPulses ≤ BusClear.pulseLimit
  · rw [if_pos (show b.heldPulses ≤ total by omega)] at hrun
    refine ⟨b', ?_, h⟩
    rw [Session.clear, ends_bind_eq hrun, if_pos hfree]
    exact ends_bind_eq (Program.ends_debug respond bus.logger _ b') _
  · rw [if_neg (show ¬ b.heldPulses ≤ total by omega)] at hrun
    refine ⟨{ b' with errors := 0 }, ?_, ?_⟩
    · rw [Session.clear, ends_bind_eq hrun, if_neg hfree]
      change ends respond (Controller.sample >>= _) b' = _
      rw [ends_bind_eq (ends_sample (h.clockOn.trans hc))]
      exact ends_bind_eq (Program.ends_error respond bus.logger _ _) _
    · refine ⟨⟨?_, h.sclLow, h.sdaLow⟩, h.padsToBus⟩
      exact ⟨h.clockOn, h.unmasked, h.mode, h.busActive, h.master, h.stalled, rfl, h.received,
        h.edge, h.heldPulses, h.slaves, h.starts, h.pulses⟩

/-- A bench whose bus is free is looked at and not touched. -/
theorem ends_clear_free {bus : Bus} (hc : b.clockOn = true) (hl : Latches b.errors)
    (ha : b.isActive = false) :
    (Session.clear bus).ends respond b = (.ok (), { b with errors := 0 }) := by
  let probing : BusClear :=
    { BusClear.start bus.config.scl bus.config.sda with state := .probeStatus }
  have hidle : (BusClear.start bus.config.scl bus.config.sda).step.ends respond b =
      (probing, b) := rfl
  obtain ⟨-, -, -, -, hmeets⟩ := sample_latched hl
  have hprobe : probing.step.ends respond b =
      ({ probing with state := .done .notNeeded }, { b with errors := 0 }) := by
    change ends respond probing.probe b = _
    rw [BusClear.probe, ends_bind_eq (ends_sample hc), if_neg (by simp [hmeets, ha])]
    rfl
  have hrun : (BusClear.start bus.config.scl bus.config.sda).run.ends respond b =
      ((.notNeeded, { probing with state := .done .notNeeded }), { b with errors := 0 }) := by
    rw [ends_run hidle]
    change ends respond probing.run b = _
    rw [ends_run hprobe]
    rfl
  rw [Session.clear, ends_bind_eq hrun]
  rfl

end TwoWire.Bench
