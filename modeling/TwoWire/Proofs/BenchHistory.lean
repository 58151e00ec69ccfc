import TwoWire.Proofs.Dormancy
/-!
# What a bench does not remember

Nothing ever looks at the counts of a bench, and a controller that is idle takes up its next message
afresh. So two benches between calls cannot be told apart if their boards are set alike and their
slaves are the same, whatever has happened on each of them before.
-/
namespace TwoWire

/-- The replies are the same, and the states are related. -/
def Agree {ρ σ : Type} (R : σ → σ → Prop) (a a' : ρ × σ) : Prop := a'.1 = a.1 ∧ R a.2 a'.2

/-- States that are answered alike and stay so are not told apart by any program. -/
theorem Program.run_related {σ α : Type} {hw : Hardware σ} {R : σ → σ → Prop}
    (hR : ∀ request s s', R s s' → Agree R (hw request s) (hw request s'))
    (p : Program α) {s s' : σ} (h : R s s') :
    let o := p.run hw s
    let o' := p.run hw s'
    o'.value = o.value ∧ o'.trace = o.trace ∧ o'.log = o.log ∧ R o.state o'.state := by
  induction p generalizing s s' with
  | done a => exact ⟨rfl, rfl, rfl, h⟩
  | access request next ih =>
    obtain ⟨hreply, hstates⟩ := hR request s s' h
    obtain ⟨hvalue, htrace, hlog, hrest⟩ := ih (hw request s).1 hstates
    simp [hreply, hvalue, htrace, hlog, hrest]
  | note entry next ih =>
    obtain ⟨hvalue, htrace, hlog, hrest⟩ := ih h
    simp [hvalue, htrace, hlog, hrest]

namespace Bench

variable {b b' : Bench}

/-! ## Counts -/

/-- Of what the controller does only a start condition is counted. -/
@[simp] theorem tally_fetch (b : Bench) : b.fetch.tally = b.tally := by
  unfold fetch
  split <;> rfl

@[simp] theorem tally_data (b : Bench) (byte : UInt8) (last : Bool) :
    (b.data byte last).tally = b.tally := by
  unfold data
  split
  · rfl
  · cases last <;> split <;> rfl
  · split
    · split <;> rfl
    · rfl

@[simp] theorem tally_pullByte (b : Bench) : b.pullByte.2.tally = b.tally := by
  unfold pullByte
  dsimp only
  split
  · split <;> simp [release]
  · rfl

theorem tally_address (b : Bench) (target : UInt8) (reading last : Bool) :
    (b.address target reading last).tally = b.begin.tally := by
  unfold address
  dsimp only
  split
  case isFalse => rfl
  split
  case isTrue => rfl
  split
  case isTrue => rw [tally_fetch]; rfl
  case isFalse => rfl

theorem tally_pushWord (b : Bench) (word : UInt32) :
    ∃ starts, (b.pushWord word).tally = { b.tally with starts := starts } := by
  unfold pushWord
  dsimp only
  split
  case isTrue => exact ⟨b.tally.starts, rfl⟩
  split
  case isTrue => exact ⟨b.begin.tally.starts, tally_address b _ _ _⟩
  case isFalse => exact ⟨b.tally.starts, tally_data b _ _⟩

/-- The same bench with other counts. -/
def recounted (b : Bench) (tally : Tally) : Bench := { b with tally := tally }

theorem recounted_board (b : Bench) (tally : Tally) :
    (b.recounted tally).clockOn = b.clockOn ∧ (b.recounted tally).unmasked = b.unmasked ∧
      (b.recounted tally).claimed = b.claimed ∧ (b.recounted tally).sclLow = b.sclLow :=
  ⟨rfl, rfl, rfl, rfl⟩

theorem fetch_recounted (b : Bench) (tally : Tally) :
    (b.recounted tally).fetch = b.fetch.recounted tally := by
  have hdue : (b.recounted tally).isStallDue = b.isStallDue := rfl
  unfold fetch
  rw [hdue]
  cases b.isStallDue <;> rfl

theorem data_recounted (b : Bench) (tally : Tally) (byte : UInt8) (last : Bool) :
    (b.recounted tally).data byte last = (b.data byte last).recounted tally := by
  have hdue : (b.recounted tally).isStallDue = b.isStallDue := rfl
  have hmode : (b.recounted tally).mode = b.mode := rfl
  have hend : (b.recounted tally).readEnd = b.readEnd := rfl
  unfold data
  rw [hdue, hmode, hend]
  cases b.mode with
  | idle => rfl
  | write => cases b.isStallDue <;> cases last <;> rfl
  | read => cases last <;> cases b.readEnd <;> rfl

theorem pullByte_recounted (b : Bench) (tally : Tally) :
    (b.recounted tally).pullByte = (b.pullByte.1, b.pullByte.2.recounted tally) := by
  have hmode : (b.recounted tally).mode = b.mode := rfl
  have hstalled : (b.recounted tally).stalled = b.stalled := rfl
  have hend : (b.recounted tally).readEnd = b.readEnd := rfl
  unfold pullByte
  rw [hmode, hstalled, hend]
  refine Prod.ext rfl ?_
  dsimp only
  split
  case isFalse => rfl
  cases b.readEnd with
  | unset => exact fetch_recounted { b with received := none, readEnd := .unset } tally
  | announced => exact fetch_recounted { b with received := none, readEnd := .reached } tally
  | reached => rfl

/-- By how much the starts and the pulses of two counts differ. -/
structure Tally.Apart (starts pulses : Int) (t t' : Tally) : Prop where
  starts : (t'.starts : Int) = t.starts + starts
  pulses : (t'.pulses : Int) = t.pulses + pulses

/-- The second bench differs from the first one in its counts only, and by this much. -/
def Counted (starts pulses : Int) (b b' : Bench) : Prop :=
  ∃ tally, b.tally.Apart starts pulses tally ∧ b' = b.recounted tally

variable {starts pulses : Int} {tally : Tally}

theorem begin_recounted (h : b.tally.Apart starts pulses tally) :
    ∃ tally', b.begin.tally.Apart starts pulses tally' ∧
      (b.recounted tally).begin = b.begin.recounted tally' := by
  obtain ⟨hstarts, hpulses⟩ := h
  refine ⟨{ tally with starts := if b.mode = .idle then tally.starts + 1 else tally.starts },
    ⟨?_, hpulses⟩, rfl⟩
  change ((if b.mode = .idle then tally.starts + 1 else tally.starts : Nat) : Int) =
    ((if b.mode = .idle then b.tally.starts + 1 else b.tally.starts : Nat) : Int) + starts
  split <;> omega

theorem Counted.address (h : Counted starts pulses b b') (target : UInt8) (reading last : Bool) :
    Counted starts pulses (b.address target reading last) (b'.address target reading last) := by
  obtain ⟨tally, hapart, rfl⟩ := h
  obtain ⟨begun, hbegun, hbegin⟩ := begin_recounted hapart
  have hack : (b.begin.recounted begun).acknowledged target = b.begin.acknowledged target := rfl
  unfold Bench.address
  dsimp only
  rw [hbegin, hack]
  cases b.begin.acknowledged target with
  | false => exact ⟨begun, hbegun, rfl⟩
  | true =>
    cases last with
    | true => exact ⟨begun, hbegun, rfl⟩
    | false =>
      cases reading with
      | false => exact ⟨begun, hbegun, rfl⟩
      | true =>
        refine ⟨begun, ?_, fetch_recounted { b.begin.select target with mode := .read } begun⟩
        simp only [Bool.false_eq_true, if_true, if_false, tally_fetch]
        exact hbegun

theorem Counted.pushWord (h : Counted starts pulses b b') (word : UInt32) :
    Counted starts pulses (b.pushWord word) (b'.pushWord word) := by
  obtain ⟨tally, hapart, rfl⟩ := h
  have hstalled : (b.recounted tally).stalled = b.stalled := rfl
  unfold Bench.pushWord
  dsimp only
  rw [hstalled]
  split
  · exact ⟨tally, hapart, rfl⟩
  split
  · exact address ⟨tally, hapart, rfl⟩ _ _ _
  · exact ⟨tally, by simpa using hapart, data_recounted b tally _ _⟩

/-- No answer depends on the counts. -/
theorem Counted.respond (h : Counted starts pulses b b') (request : Access) :
    Agree (Counted starts pulses) (Bench.respond request b) (Bench.respond request b') := by
  obtain ⟨tally, hapart, rfl⟩ := h
  obtain ⟨hstarts, hpulses⟩ := id hapart
  have hsame := recounted_board b tally
  cases request with
  | readRegister register =>
    simp only [Bench.respond, readRegister, hsame]
    split
    case isFalse => exact ⟨rfl, tally, hapart, rfl⟩
    cases register with
    | readData =>
      rw [pullByte_recounted]
      exact ⟨rfl, tally, by simpa using hapart, rfl⟩
    | _ => exact ⟨rfl, tally, hapart, rfl⟩
  | writeRegister register word =>
    simp only [Bench.respond, writeRegister, hsame]
    split
    case isFalse => exact ⟨rfl, tally, hapart, rfl⟩
    cases register with
    | writeData => exact ⟨rfl, pushWord ⟨tally, hapart, rfl⟩ word⟩
    | _ => exact ⟨rfl, tally, hapart, rfl⟩
  | enableClock id =>
    simp only [Bench.respond, enableClock]
    split
    · exact ⟨rfl, { tally with clockEnables := tally.clockEnables + 1 }, ⟨hstarts, hpulses⟩, rfl⟩
    · exact ⟨rfl, tally, hapart, rfl⟩
  | disableClock id =>
    simp only [Bench.respond, disableClock]
    split
    · exact ⟨rfl, { tally with clockDisables := tally.clockDisables + 1 }, ⟨hstarts, hpulses⟩, rfl⟩
    · exact ⟨rfl, tally, hapart, rfl⟩
  | claimLine id =>
    simp only [Bench.respond, claimLine, hsame]
    split
    case isFalse => exact ⟨rfl, tally, hapart, rfl⟩
    split
    · exact ⟨rfl, tally, hapart, rfl⟩
    · exact ⟨rfl, { tally with claims := tally.claims + 1 }, ⟨hstarts, hpulses⟩, rfl⟩
  | unmaskLine id => exact ⟨rfl, { tally with unmasks := tally.unmasks + 1 }, ⟨hstarts, hpulses⟩, rfl⟩
  | maskLine id => exact ⟨rfl, { tally with masks := tally.masks + 1 }, ⟨hstarts, hpulses⟩, rfl⟩
  | takePending id =>
    simp only [Bench.respond, takePending, hsame]
    split <;> exact ⟨rfl, tally, hapart, rfl⟩
  | drivePin pin high =>
    simp only [Bench.respond, drivePin]
    repeat' split
    all_goals exact ⟨rfl, tally, hapart, rfl⟩
  | turnPin pin direction =>
    cases direction with
    | output => exact ⟨rfl, tally, hapart, rfl⟩
    | input =>
      simp only [Bench.respond, turnPin, hsame]
      split
      · refine ⟨rfl, { tally with pulses := tally.pulses + 1 }, ⟨hstarts, ?_⟩, rfl⟩
        change ((tally.pulses + 1 : Nat) : Int) = ((b.tally.pulses + 1 : Nat) : Int) + pulses
        omega
      · split <;> exact ⟨rfl, tally, hapart, rfl⟩
  | routePads toBus =>
    cases toBus <;>
      exact ⟨rfl, { tally with padSwitches := tally.padSwitches + 1 }, ⟨hstarts, hpulses⟩, rfl⟩
  | delay nanoseconds =>
    exact ⟨rfl, { tally with delayed := tally.delayed + nanoseconds.toNat }, ⟨hstarts, hpulses⟩, rfl⟩
  | _ => exact ⟨rfl, tally, hapart, rfl⟩

/-! ## What an idle controller did last -/

/-- The same bench with another memory of its last message. -/
def recast (b : Bench) (target : UInt8) (carried : Nat) (aimed : Bool) (readEnd : ReadEnd) : Bench :=
  { b with target := target, carried := carried, aimed := aimed, readEnd := readEnd }

theorem recast_board (b : Bench) (target : UInt8) (carried : Nat) (aimed : Bool)
    (readEnd : ReadEnd) :
    let b' := b.recast target carried aimed readEnd
    b'.clockOn = b.clockOn ∧ b'.unmasked = b.unmasked ∧ b'.claimed = b.claimed ∧
      b'.sclLow = b.sclLow :=
  ⟨rfl, rfl, rfl, rfl⟩

/-- The second bench differs from the first one at most in its memory of the last message, and that
only while the controller is idle. -/
def Recast (b b' : Bench) : Prop :=
  b' = b ∨ b.mode = .idle ∧ ∃ target carried aimed readEnd, b' = b.recast target carried aimed readEnd

section
variable {target : UInt8} {carried : Nat} {aimed : Bool} {readEnd : ReadEnd}

theorem Recast.of_idle (hm : b.mode = .idle) :
    Recast b (b.recast target carried aimed readEnd) :=
  .inr ⟨hm, target, carried, aimed, readEnd, rfl⟩

/-- An idle controller takes an address as if it were its first one. -/
theorem recast_address (hm : b.mode = .idle) (address : UInt8) (reading last : Bool) :
    Recast (b.address address reading last)
      ((b.recast target carried aimed readEnd).address address reading last) := by
  have hack : (b.recast target carried aimed readEnd).begin.acknowledged address =
      b.begin.acknowledged address := rfl
  have hselect : (b.recast target carried aimed readEnd).begin.select address =
      b.begin.select address := by
    have hidle (other : UInt8) : other ≠ address ∨ b.mode = .idle := .inr hm
    simp only [select, begin, signal, recast, hidle, if_true]
    rfl
  unfold Bench.address
  dsimp only
  rw [hack, hselect]
  split
  · exact .inl rfl
  · exact @Recast.of_idle _ target carried aimed .unset rfl

theorem recast_pushWord (hm : b.mode = .idle) (word : UInt32) :
    Recast (b.pushWord word) ((b.recast target carried aimed readEnd).pushWord word) := by
  have hstalled : (b.recast target carried aimed readEnd).stalled = b.stalled := rfl
  have hmode : (b.recast target carried aimed readEnd).mode = b.mode := rfl
  unfold Bench.pushWord
  dsimp only
  rw [hstalled]
  split
  · exact .of_idle hm
  split
  · exact recast_address hm _ _ _
  · unfold Bench.data
    rw [hmode, hm]
    exact .of_idle hm

variable (target carried aimed readEnd) in
theorem recast_pullByte (hm : b.mode = .idle) :
    (b.recast target carried aimed readEnd).pullByte =
      (b.pullByte.1, b.pullByte.2.recast target carried aimed readEnd) ∧
      b.pullByte.2.mode = .idle := by
  have hmode : (b.recast target carried aimed readEnd).mode = b.mode := rfl
  unfold pullByte
  rw [hmode]
  simp only [hm]
  exact ⟨rfl, rfl⟩

end

/-- No answer depends on what an idle controller did last. -/
theorem Recast.respond (h : Recast b b') (request : Access) :
    Agree Recast (Bench.respond request b) (Bench.respond request b') := by
  obtain rfl | ⟨hm, target, carried, aimed, readEnd, rfl⟩ := h
  · exact ⟨rfl, .inl rfl⟩
  have hsame := recast_board b target carried aimed readEnd
  cases request with
  | readRegister register =>
    simp only [Bench.respond, readRegister, hsame]
    split
    case isFalse => exact ⟨rfl, .of_idle hm⟩
    cases register with
    | readData =>
      obtain ⟨hpull, hstill⟩ := recast_pullByte target carried aimed readEnd hm
      rw [hpull]
      exact ⟨rfl, .of_idle hstill⟩
    | _ => exact ⟨rfl, .of_idle hm⟩
  | writeRegister register word =>
    simp only [Bench.respond, writeRegister, hsame]
    split
    case isFalse => exact ⟨rfl, .of_idle hm⟩
    cases register with
    | writeData => exact ⟨rfl, recast_pushWord hm word⟩
    | _ => exact ⟨rfl, .of_idle hm⟩
  | enableClock id =>
    simp only [Bench.respond, enableClock]
    split <;> exact ⟨rfl, .of_idle hm⟩
  | disableClock id =>
    simp only [Bench.respond, disableClock]
    split <;> exact ⟨rfl, .of_idle hm⟩
  | claimLine id =>
    simp only [Bench.respond, claimLine, hsame]
    repeat' split
    all_goals exact ⟨rfl, .of_idle hm⟩
  | takePending id =>
    simp only [Bench.respond, takePending, hsame]
    split <;> exact ⟨rfl, .of_idle hm⟩
  | drivePin pin high =>
    simp only [Bench.respond, drivePin]
    repeat' split
    all_goals exact ⟨rfl, .of_idle hm⟩
  | turnPin pin direction =>
    cases direction with
    | output => exact ⟨rfl, .of_idle hm⟩
    | input =>
      simp only [Bench.respond, turnPin, hsame]
      repeat' split
      all_goals exact ⟨rfl, .of_idle hm⟩
  | routePads toBus =>
    cases toBus with
    | true => exact ⟨rfl, .of_idle hm⟩
    | false => exact ⟨rfl, .of_idle rfl⟩
  | _ => exact ⟨rfl, .of_idle hm⟩

/-! ## Between calls -/

/-- A bench between calls with a free bus. -/
structure Vacant (b : Bench) : Prop extends Dormant b where
  free : b.isActive = false

theorem isActive_eq_false : b.isActive = false ↔ b.busActive = false ∧ b.heldPulses = 0 := by
  simp [isActive, sdaHeld]

theorem Vacant.quiescent (h : Vacant b) : Quiescent b where
  active hm := absurd h.mode hm
  stalls hs := by
    rw [h.stalled] at hs
    cases hs
  mode := h.mode
  busActive := (isActive_eq_false.mp h.free).1
  heldPulses := (isActive_eq_false.mp h.free).2
  errors := h.errors
  edge := h.edge
  received := h.received

/-- No program tells the second bench from the first one: its result, its accesses with their
replies, its log and the slaves are the same, and so are the start conditions and the pulses that it
makes. -/
def Indistinct (b b' : Bench) : Prop :=
  ∀ (α : Type) (p : Program α),
    let o := p.run respond b
    let o' := p.run respond b'
    o'.value = o.value ∧ o'.trace = o.trace ∧ o'.log = o.log ∧ o'.state.slaves = o.state.slaves ∧
      (o'.state.tally.starts : Int) - b'.tally.starts = o.state.tally.starts - b.tally.starts ∧
      (o'.state.tally.pulses : Int) - b'.tally.pulses = o.state.tally.pulses - b.tally.pulses

theorem Indistinct.trans {b'' : Bench} (h : Indistinct b b') (h' : Indistinct b' b'') :
    Indistinct b b'' := by
  intro α p o o''
  obtain ⟨hvalue, htrace, hlog, hslaves, hstarts, hpulses⟩ := h α p
  obtain ⟨hvalue', htrace', hlog', hslaves', hstarts', hpulses'⟩ := h' α p
  exact ⟨hvalue'.trans hvalue, htrace'.trans htrace, hlog'.trans hlog, hslaves'.trans hslaves,
    hstarts'.trans hstarts, hpulses'.trans hpulses⟩

theorem indistinct_of_counted (h : Counted starts pulses b b') : Indistinct b b' := by
  intro α p o o'
  obtain ⟨hvalue, htrace, hlog, hstates⟩ :=
    p.run_related (fun request _ _ hrelated => Counted.respond hrelated request) h
  obtain ⟨_, ⟨hstarts, hpulses⟩, rfl⟩ := h
  obtain ⟨tally, ⟨hstarts', hpulses'⟩, hstate⟩ : Counted starts pulses o.state o'.state := hstates
  rw [hstate]
  refine ⟨hvalue, htrace, hlog, rfl, ?_, ?_⟩
  · simp only [recounted, hstarts, hstarts']
    omega
  · simp only [recounted, hpulses, hpulses']
    omega

theorem Recast.same (h : Recast b b') : b'.slaves = b.slaves ∧ b'.tally = b.tally := by
  obtain rfl | ⟨-, target, carried, aimed, readEnd, rfl⟩ := h <;> exact ⟨rfl, rfl⟩

theorem indistinct_of_recast (h : Recast b b') : Indistinct b b' := by
  intro α p o o'
  obtain ⟨hvalue, htrace, hlog, hstates⟩ :=
    p.run_related (fun request _ _ hrelated => Recast.respond hrelated request) h
  obtain ⟨hslaves, htally⟩ : o'.state.slaves = o.state.slaves ∧ o'.state.tally = o.state.tally :=
    hstates.same
  rw [htally, h.same.2]
  exact ⟨hvalue, htrace, hlog, hslaves, rfl, rfl⟩

/-- On vacant benches whose boards are set alike, nothing but the slaves matters. -/
theorem Vacant.indistinct (h : Vacant b) (h' : Vacant b') (hf : Fitted b b')
    (hs : b'.slaves = b.slaves) : Indistinct b b' := by
  let between := b.recast b'.target b'.carried b'.aimed b'.readEnd
  have hrecast : Recast b between := .of_idle h.mode
  have hcounted : Counted (b'.tally.starts - b.tally.starts) (b'.tally.pulses - b.tally.pulses)
      between b' := by
    refine ⟨b'.tally, ⟨?_, ?_⟩, ?_⟩
    · change (b'.tally.starts : Int) = b.tally.starts + (b'.tally.starts - b.tally.starts)
      omega
    · change (b'.tally.pulses : Int) = b.tally.pulses + (b'.tally.pulses - b.tally.pulses)
      omega
    · obtain ⟨hactive, hheld⟩ := isActive_eq_false.mp h.free
      obtain ⟨hactive', hheld'⟩ := isActive_eq_false.mp h'.free
      have hedge : b'.edge = b.edge := congrArg Latch.mk (h'.edge.trans h.edge.symm)
      obtain ⟨⟨hon, hunmasked, -, hmode, hmaster, hstalled, hreceived, herrors, hscl, hsda⟩, -⟩ := h
      obtain ⟨⟨hon', hunmasked', -, hmode', hmaster', hstalled', hreceived', herrors', hscl', hsda'⟩,
        -⟩ := h'
      obtain ⟨-, -, hclaimed, hcontrol, hpads, -, -⟩ := hf
      cases b
      cases b'
      simp_all [between, recast, recounted]
  exact Indistinct.trans (indistinct_of_recast hrecast) (indistinct_of_counted hcounted)

end Bench
end TwoWire
