import TwoWire.Proofs.BenchHistory
/-!
# The bench under any handling

A bench is handled in three ways: by an access to the board, by attaching a device, and by a slave that
is made to hold SDA. The accesses need not be those of a master: any word may be pushed, any pin turned,
and the pads may be taken away at any time. What each handling keeps, holds of every bench; and there is
one way only for a slave that holds SDA to let go of it, which is to be clocked often enough.
-/
namespace TwoWire
namespace Bench

/-- What can be done to a bench. -/
inductive Handling
  | access (request : Access)
  | attach (address : UInt8) (device : Device)
  | wedge (address : UInt8)

/-- The bench after a handling. -/
def handle (b : Bench) : Handling → Bench
  | .access request => (respond request b).2
  | .attach address device => b.attach address device
  | .wedge address => b.wedge address

variable {b b' : Bench} {handling : Handling}

/-! ## What every handling keeps -/

theorem consistent_empty : Consistent {} := ⟨coherent_empty, rfl, nofun, latches_zero⟩

theorem Consistent.handle (h : Consistent b) (handling : Handling) :
    Consistent (b.handle handling) := by
  cases handling with
  | access request => exact h.respond request
  | attach address device => exact h.undisturbed ⟨rfl, rfl, rfl, rfl, rfl, rfl⟩
  | wedge address => exact ⟨h.toCoherent.wedge address, h.master, h.received, h.latched⟩

theorem Consistent.foldl (h : Consistent b) (handlings : List Handling) :
    Consistent (handlings.foldl Bench.handle b) := by
  induction handlings generalizing b with
  | nil => exact h
  | cons handling rest ih => exact ih (h.handle handling)

/-! ## Registers -/

/-- While the clock is gated the registers read zero and take nothing. -/
theorem respond_of_gated (hc : b.clockOn = false) (register : Register) (word : UInt32) :
    respond (.readRegister register) b = (0, b) ∧
      respond (.writeRegister register word) b = ((), b) := by
  simp [respond, readRegister, writeRegister, hc]

/-- While the clock is on, a sample shows the bus as active if the controller or a slave keeps it. -/
theorem isBusy_sample (h : Consistent b) :
    (Status.mk (respond (.readRegister .status) b).1).isBusy =
      (b.clockOn && (b.busActive || b.sdaHeld)) := by
  cases hc : b.clockOn with
  | false =>
    rw [(respond_of_gated hc .status 0).1, Bool.false_and]
    change (Status.mk 0).isBusy = false
    decide
  | true =>
    obtain ⟨-, -, -, hbusy, -⟩ := sample_latched h.latched
    change (Status.mk (b.readRegister .status).1).isBusy = b.isActive
    rw [readRegister_of_clockOn hc]
    exact hbusy

/-! ## The hold on SDA -/

/-- A slave can take hold of SDA: it may stall when the controller is used, or it is made to. -/
def Handling.MayTakeHold : Handling → Prop
  | .access request => request.isRegisterAccess = true
  | .attach _ _ => False
  | .wedge _ => True

/-- What a handling can do to the pulses that a slave still needs to let go of SDA. -/
inductive Grip (b : Bench) (handling : Handling) (b' : Bench) : Prop
  | kept (counted : b'.tally.pulses = b.tally.pulses) (remaining : b'.heldPulses = b.heldPulses)
  /-- SCL is let go after it was driven low. -/
  | pulsed (release : handling = .access (.turnPin scl .input)) (low : b.sclLow = true)
      (counted : b'.tally.pulses = b.tally.pulses + 1)
      (remaining : b'.heldPulses = b.heldPulses - 1)
  | taken (cause : handling.MayTakeHold) (counted : b'.tally.pulses = b.tally.pulses)
      (remaining : b'.heldPulses ≠ 0)

/-- SDA is left alone, or a slave has stalled and needs one pulse to let go of it. -/
def MayStall (b b' : Bench) : Prop := b'.heldPulses = b.heldPulses ∨ b'.heldPulses = 1

theorem mayStall_fetch (b : Bench) : MayStall b b.fetch := by
  unfold fetch
  split
  · exact .inr rfl
  · exact .inl rfl

theorem mayStall_address (b : Bench) (target : UInt8) (reading last : Bool) :
    MayStall b (b.address target reading last) := by
  unfold address
  dsimp only
  split
  case isFalse => exact .inl rfl
  split
  case isTrue => exact .inl rfl
  split
  case isTrue => exact mayStall_fetch { b.begin.select target with mode := .read }
  case isFalse => exact .inl rfl

theorem mayStall_data (b : Bench) (byte : UInt8) (last : Bool) : MayStall b (b.data byte last) := by
  unfold data
  split
  case h_1 => exact .inl rfl
  case h_2 =>
    split
    · exact .inr rfl
    · cases last <;> exact .inl rfl
  case h_3 =>
    split
    · split <;> exact .inl rfl
    · exact .inl rfl

theorem mayStall_pushWord (b : Bench) (word : UInt32) : MayStall b (b.pushWord word) := by
  unfold pushWord
  dsimp only
  split
  case isTrue => exact .inl rfl
  split
  · exact mayStall_address b _ _ _
  · exact mayStall_data b _ _

theorem mayStall_pullByte (b : Bench) : MayStall b b.pullByte.2 := by
  unfold pullByte
  dsimp only
  split
  case isFalse => exact .inl rfl
  split
  · exact mayStall_fetch { b with received := none }
  · exact mayStall_fetch { b with received := none, readEnd := .reached }
  · exact .inl rfl

theorem Grip.of_mayStall (hcause : handling.MayTakeHold)
    (hcounted : b'.tally.pulses = b.tally.pulses) (h : MayStall b b') : Grip b handling b' := by
  obtain hsame | hone := h
  · exact .kept hcounted hsame
  · exact .taken hcause hcounted (by rw [hone]; decide)

theorem Effect.grip {request : Access} (h : Effect b request b') : Grip b (.access request) b' := by
  cases h with
  | set _ hpulses => exact .kept hpulses rfl
  | pulsed hlow => exact .pulsed rfl hlow rfl rfl
  | pulled => exact .of_mayStall rfl (congrArg Tally.pulses (tally_pullByte b)) (mayStall_pullByte b)
  | pushed =>
    refine .of_mayStall rfl ?_ (mayStall_pushWord b _)
    obtain ⟨starts, htally⟩ := tally_pushWord b _
    rw [htally]
  | _ => exact .kept rfl rfl

theorem grip_handle (b : Bench) (handling : Handling) : Grip b handling (b.handle handling) := by
  cases handling with
  | access request => exact (effect_respond b request).grip
  | attach address device => exact .kept rfl rfl
  | wedge address => exact .taken trivial rfl (heldPulses_wedge_ne_zero b address)

theorem sdaHeld_eq_true : b.sdaHeld = true ↔ b.heldPulses ≠ 0 := by simp [sdaHeld]

/-- A pulse that is counted while a slave holds SDA is the only one of its handling, and one that
the slave waits for. -/
theorem Grip.of_counted (h : Grip b handling b') (hheld : b.sdaHeld = true)
    (hcounted : b'.tally.pulses ≠ b.tally.pulses) :
    b'.tally.pulses = b.tally.pulses + 1 ∧ b'.heldPulses + 1 = b.heldPulses := by
  rw [sdaHeld_eq_true] at hheld
  cases h with
  | kept hsame _ => exact absurd hsame hcounted
  | taken _ hsame _ => exact absurd hsame hcounted
  | pulsed _ _ hone hremaining => exact ⟨hone, by omega⟩

/-- Nothing but the last pulse that its slave needs makes a held SDA free. -/
theorem last_pulse_of_let_go (hheld : b.sdaHeld = true) (hfree : (b.handle handling).sdaHeld = false) :
    handling = .access (.turnPin scl .input) ∧ b.sclLow = true ∧ b.heldPulses = 1 := by
  rw [sdaHeld_eq_true] at hheld
  rw [← Bool.not_eq_true, sdaHeld_eq_true, not_not] at hfree
  cases grip_handle b handling with
  | kept _ hsame => exact absurd (hsame.symm.trans hfree) hheld
  | taken _ _ hne => exact absurd hfree hne
  | pulsed hrelease hlow _ hremaining => exact ⟨hrelease, hlow, by omega⟩

/-- SDA is high if it is driven low neither by hand nor by a slave. -/
theorem readPin_sda (b : Bench) : b.readPin sda = (!b.sdaLow && decide (b.heldPulses = 0)) := by
  have hne : sda ≠ scl := by decide
  simp [readPin, hne, sdaHeld]

/-! ## Clocking by hand -/

/-- From the first bench to the second one `n` pulses were counted, and each of them brought the
slave that holds SDA one step nearer to letting go. -/
structure Lowered (n : Nat) (b b' : Bench) : Prop where
  counted : b'.tally.pulses = b.tally.pulses + n
  remaining : b'.heldPulses = b.heldPulses - n

theorem Lowered.trans {b'' : Bench} {n k : Nat} (h : Lowered n b b') (h' : Lowered k b' b'') :
    Lowered (n + k) b b'' where
  counted := by rw [h'.counted, h.counted, Nat.add_assoc]
  remaining := by rw [h'.remaining, h.remaining, Nat.sub_sub]

theorem lowered_handle (b : Bench) (h : ¬ handling.MayTakeHold) :
    ∃ n, Lowered n b (b.handle handling) := by
  cases grip_handle b handling with
  | kept hcounted hremaining => exact ⟨0, hcounted, hremaining⟩
  | pulsed _ _ hcounted hremaining => exact ⟨1, hcounted, hremaining⟩
  | taken hcause _ _ => exact absurd hcause h

theorem lowered_foldl {handlings : List Handling} (h : ∀ handling ∈ handlings, ¬ handling.MayTakeHold)
    (b : Bench) : ∃ n, Lowered n b (handlings.foldl handle b) := by
  induction handlings generalizing b with
  | nil => exact ⟨0, rfl, rfl⟩
  | cons handling rest ih =>
    obtain ⟨hfirst, hrest⟩ := List.forall_mem_cons.mp h
    obtain ⟨n, hlowered⟩ := lowered_handle b hfirst
    obtain ⟨k, hafter⟩ := ih hrest (b.handle handling)
    exact ⟨n + k, hlowered.trans hafter⟩

/-- As long as no slave can take hold of it anew, SDA is let go as soon as the pulses that its slave
needs have been counted, whatever else is done to the board meanwhile. -/
theorem sdaHeld_foldl_eq_false_iff {handlings : List Handling}
    (h : ∀ handling ∈ handlings, ¬ handling.MayTakeHold) (b : Bench) :
    let b' := handlings.foldl handle b
    b'.sdaHeld = false ↔ b.heldPulses ≤ b'.tally.pulses - b.tally.pulses := by
  obtain ⟨n, hcounted, hremaining⟩ := lowered_foldl h b
  simp only [sdaHeld, hcounted, hremaining]
  simp [Nat.sub_eq_zero_iff_le]

/-- A slave that needs two pulses lets go at the second one. -/
example :
    let b := (attach {} 0x50 (.stuck 2)).wedge 0x50
    let pulse : List Handling := [.access (.drivePin scl false), .access (.turnPin scl .input)]
    (pulse.foldl handle b).sdaHeld = true ∧ ((pulse ++ pulse).foldl handle b).sdaHeld = false := by
  decide +kernel

/-! ## Any handling -/

/-- Whatever is done to a new bench, in whatever order: its controller is the bus master exactly while
it does something, keeps the bus active while it does, and is stalled only then; it has received a byte
only while it reads. A sample shows the bus as active if the controller or a slave keeps it. A pulse
that is counted while a slave holds SDA leaves one fewer for the slave to need, and with none left SDA
is let go. While the clock is gated, the registers read zero and take nothing. -/
theorem stays_consistent (handlings : List Handling) :
    let b := handlings.foldl handle {}
    (b.master = true ↔ b.mode ≠ .idle) ∧ (b.mode ≠ .idle → b.busActive = true) ∧
      (b.stalled = true → b.mode ≠ .idle) ∧ (b.received.isSome = true → b.mode = .read) ∧
      (Status.mk (respond (.readRegister .status) b).1).isBusy =
        (b.clockOn && (b.busActive || b.sdaHeld)) ∧
      (∀ handling, let b' := b.handle handling
        b.sdaHeld = true → b'.tally.pulses ≠ b.tally.pulses →
          b'.tally.pulses = b.tally.pulses + 1 ∧ b'.heldPulses + 1 = b.heldPulses ∧
            b'.readPin sda = (!b'.sdaLow && decide (b'.heldPulses = 0))) ∧
      (b.clockOn = false → ∀ register word, respond (.readRegister register) b = (0, b) ∧
        respond (.writeRegister register word) b = ((), b)) := by
  intro b
  have h : Consistent b := consistent_empty.foldl handlings
  refine ⟨?_, h.active, h.stalls, h.received, isBusy_sample h, ?_, respond_of_gated⟩
  · rw [h.master, decide_eq_true_iff]
  · intro handling b' hheld hcounted
    obtain ⟨hone, hremaining⟩ := (grip_handle b handling).of_counted hheld hcounted
    exact ⟨hone, hremaining, readPin_sda b'⟩

end Bench

/-! ## Masters -/

open Bench (respond handle Handling)

/-- A program handles the bench by its accesses. -/
theorem Program.state_run_eq_foldl {α : Type} (p : Program α) (b : Bench) :
    let o := p.run respond b
    o.state = (o.trace.map fun event => Handling.access event.access).foldl handle b := by
  induction p generalizing b with
  | done a => rfl
  | access request next ih =>
    rw [run_access]
    exact ih (respond request b).1 (respond request b).2
  | note entry next ih =>
    rw [run_note]
    exact ih b

/-- Whatever happens to a master and its bench is a handling of the bench. -/
theorem Happening.exists_handlings (happenings : List Happening) (m : Master) (b : Bench) :
    ∃ handlings : List Handling, (happenings.foldl play (m, b)).2 = handlings.foldl handle b := by
  induction happenings generalizing m b with
  | nil => exact ⟨[], rfl⟩
  | cons happening rest ih =>
    obtain ⟨later, hlater⟩ := ih (play (m, b) happening).1 (play (m, b) happening).2
    rw [List.foldl_cons, hlater]
    cases happening with
    | call submitted =>
      let o := (submitted.submit m).run respond b
      refine ⟨(o.trace.map fun event => .access event.access) ++ later, ?_⟩
      rw [List.foldl_append, ← Program.state_run_eq_foldl]
      rfl
    | attach address device => exact ⟨.attach address device :: later, rfl⟩
    | wedge address => exact ⟨.wedge address :: later, rfl⟩

/-- So every bench that a master comes to is consistent, whatever it and others did to it before. -/
theorem Happening.consistent_foldl (happenings : List Happening) (m : Master) :
    (happenings.foldl play (m, {})).2.Consistent := by
  obtain ⟨handlings, hhandled⟩ := exists_handlings happenings m {}
  rw [hhandled]
  exact Bench.consistent_empty.foldl handlings

end TwoWire
