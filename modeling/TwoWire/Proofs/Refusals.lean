import TwoWire.Proofs.BenchHistory
import TwoWire.Proofs.Delivery
/-!
# Chains that are refused

A message whose address nobody acknowledges ends its chain. The controller lets go of the bus at
once and latches an error, which the next poll finds together with a free bus. So the fault is
reported, there is nothing to clear, and what went out before has reached its slaves.
-/
namespace TwoWire
namespace Bench
open Program (ends ends_bind_eq)

variable {bus : Bus} {b : Bench} {t : Transaction}

/-- The bench after an address that nobody has acknowledged. -/
structure Refused (b : Bench) (slaves : Slaves) (starts pulses : Nat) : Prop where
  clockOn : b.clockOn = true
  unmasked : b.unmasked = true
  mode : b.mode = .idle
  busActive : b.busActive = false
  master : b.master = false
  stalled : b.stalled = false
  heldPulses : b.heldPulses = 0
  received : b.received = none
  errors : b.errors = Status.Flag.nacked.mask
  slaves : b.slaves = slaves
  starts : b.tally.starts = starts
  pulses : b.tally.pulses = pulses

variable {slaves : Slaves} {starts pulses : Nat}

theorem Refused.alike {b' : Bench} (h : Refused b slaves starts pulses) (ha : Alike b b') :
    Refused b' slaves starts pulses := by
  obtain ⟨edge, delayed, rfl⟩ := ha
  exact ⟨h.clockOn, h.unmasked, h.mode, h.busActive, h.master, h.stalled, h.heldPulses, h.received,
    h.errors, h.slaves, h.starts, h.pulses⟩

theorem Refused.isActive (h : Refused b slaves starts pulses) : b.isActive = false :=
  isActive_eq_false.mpr ⟨h.busActive, h.heldPulses⟩

/-- Looking at the bench takes the error from it, and nothing is left of the refusal. -/
theorem Refused.attended (h : Refused b slaves starts pulses) :
    Rested b.attended slaves starts pulses where
  clockOn := h.clockOn
  unmasked := h.unmasked
  stalled := h.stalled
  errors := rfl
  heldPulses := h.heldPulses
  busActive := by
    change b.busActive = decide (b.mode ≠ .idle)
    simp [h.busActive, h.mode]
  master hm := absurd h.mode hm
  mode := h.mode
  received := h.received
  slaves := h.slaves
  starts := h.starts
  pulses := h.pulses

theorem refused_addressWord {m : Message} (h : Open b) (ht : m.address ≤ 0x7f)
    (hack : b.acknowledged m.address = false) (last : Bool) :
    Refused (b.pushWord (m.addressWord last).bits) b.slaves b.begun b.tally.pulses := by
  have hbegin : b.begin.acknowledged m.address = false := hack
  have hpush : b.pushWord (m.addressWord last).bits = (b.begin.latch .nacked).release := by
    rw [Message.addressWord, pushWord_address h.stalled ht, address]
    simp only [hbegin, Bool.false_eq_true, if_false]
  have herrors : (b.begin.latch .nacked).errors = Status.Flag.nacked.mask := by
    change b.errors ||| Status.Flag.nacked.mask = _
    rw [h.errors, UInt32.zero_or]
  rw [hpush]
  exact ⟨h.clockOn, h.unmasked, rfl, rfl, rfl, rfl, h.heldPulses, rfl, herrors, rfl, rfl, rfl⟩

theorem sample_nacked (h : b.errors = Status.Flag.nacked.mask) :
    (⟨b.errors ||| b.liveBits⟩ : Status).fault? = some .nack := by
  unfold liveBits
  rw [h]
  cases b.received.isSome <;> cases b.isActive <;> cases b.master <;> decide

/-- The first poll after a refusal sees the error and a free bus at once, and halts the
transaction. -/
theorem ends_settle_refused (hbus : bus.config = config) (h : Refused b slaves starts pulses)
    (ht : t.isInert = false) :
    (Session.settle bus 0 t).ends respond b = (⟨true, t.halt .nack⟩, b.attended) := by
  have hlatched : Latches b.errors := ⟨true, false, by rw [h.errors]; rfl⟩
  obtain ⟨-, -, -, hbusy, -⟩ := sample_latched hlatched
  have hfault := sample_nacked h.errors
  have hpoll := ends_poll hbus h.clockOn h.unmasked t
  dsimp only at hpoll
  rw [ends_onEvent_fault ht hfault, hfault, hbusy, h.isActive, if_pos (by simp)] at hpoll
  exact ends_settle_quiet (by decide) hpoll rfl

/-- A fault is reported, and on a free bus that is all. -/
theorem ends_conclude_fault (hb : Serving b) (hm : b.mode = .idle) {fault : Fault}
    (hf : t.fault = some fault) :
    (Session.conclude bus t).ends respond b = (⟨.error (.halted fault), t.chain⟩, b) := by
  have hidle : b.isActive = false := by simp [hb.isActive, hm]
  have hclear : (Session.clear bus).ends respond b = (.ok (), { b with errors := 0 }) :=
    ends_clear_free hb.clockOn (hb.errors ▸ latches_zero) hidle
  rw [← hb.errors] at hclear
  rw [Session.conclude, hf]
  dsimp only
  rw [ends_bind_eq (Program.ends_error respond bus.logger _ b)]
  exact ends_bind_eq hclear _

theorem Fitted.pushAll (b : Bench) (words : List FifoWord) : Fitted b (Bench.pushAll b words) := by
  induction words generalizing b with
  | nil => exact refl b
  | cons word rest ih => exact (pushWord b word.bits).trans (ih _)

theorem Fitted.of_alike {b' : Bench} (h : Alike b b') : Fitted b b' := by
  obtain ⟨edge, delayed, rfl⟩ := h
  constructor <;> rfl

/-- A chain of which a message is refused: the messages before it have reached their slaves, and the
bus is free. -/
theorem ends_carry_refused (hbus : bus.config = config) (h : Open b) {before after : List Message}
    {m : Message} (hvalid : Message.Valid (before ++ m :: after))
    (hw : ∀ w ∈ before, w.isRead = false) (hs : ∀ w ∈ before, Slaves.Serve b.slaves w)
    (hack : b.acknowledged m.address = false) :
    ∃ b', (Session.carry bus (before ++ m :: after)).ends respond b =
        (⟨.error (.halted .nack), before ++ m :: after⟩, b') ∧
      Rested b' (Slaves.replay b.slaves before) b.begun b.tally.pulses ∧ b'.master = false ∧
      Fitted b b' := by
  have ht : m.address ≤ 0x7f := hvalid.2 m (by simp)
  let b₀ := pushAll b (Message.opening before)
  obtain ⟨hopen, hslaves, hbegun, hpulses, hfirst⟩ := follows_opening h before hw hs
  -- the words before the refusal, and the address that is refused
  have hahead : (Transaction.start (before ++ m :: after)).ahead =
      (Message.opening before ++ [m.addressWord after.isEmpty]).map .word ++
        (m.body before.length after.isEmpty ++ Message.itinerary (before.length + 1) after) := by
    rw [Transaction.ahead_start, Message.itinerary_append 0 before (List.cons_ne_nil m after) hw]
    simp [Message.itinerary, Message.legs]
  obtain ⟨first, rest, hwords, hfollows⟩ := @hfirst (m.addressWord after.isEmpty) [] trivial
  rw [hwords] at hahead
  obtain ⟨t, b₁, hrun, hchain, -, halike, -, hcarry⟩ :=
    ends_carry_leading hbus h hvalid hahead hfollows
  have hfitted := (Fitted.pushAll b (first :: rest)).trans (.of_alike halike)
  rw [← hwords, pushAll_append] at halike
  have hack₀ : b₀.acknowledged m.address = false := by
    obtain ⟨f, hf, hkept⟩ := Slaves.get_replay b.slaves before m.address
    change (b₀.slaves.get m.address).any Slave.acknowledges = false
    rw [hslaves, hf, Option.any_map, ← hack]
    exact congrArg (Option.any · _) (funext fun s => (hkept s).1)
  have hrefused := (refused_addressWord hopen ht hack₀ after.isEmpty).alike halike
  rw [hslaves, hbegun, hpulses] at hrefused
  -- the poll after it
  have hrested := hrefused.attended
  have hsettle := ends_settle_refused hbus hrefused hrun.isInert
  have hconclude : (Session.conclude bus (t.halt .nack)).ends respond b₁.attended =
      (⟨.error (.halted .nack), t.chain⟩, b₁.attended) :=
    ends_conclude_fault hrested.toServing hrested.mode rfl
  refine ⟨b₁.attended, ?_, hrested, hrefused.master, hfitted.trans (by constructor <;> rfl)⟩
  rw [hcarry hsettle, if_pos rfl, hconclude, ← hchain]

/-- A bench at rest is vacant when its session is over, if its lines are not driven. -/
theorem Rested.vacant (h : Rested b slaves starts pulses) (hm : b.master = false)
    (hscl : b.sclLow = false) (hsda : b.sdaLow = false) : Vacant b.closed where
  clockOn := rfl
  unmasked := rfl
  edge := rfl
  mode := h.mode
  master := hm
  stalled := h.stalled
  received := h.received
  errors := h.errors
  sclLow := hscl
  sdaLow := hsda
  free := by
    change b.isActive = false
    simp [h.isActive, h.mode]

end Bench
/-- On a quiescent bench a chain ends at the first message whose address nobody acknowledges, with
that fault as its answer. The writes before it have been stored, one after another, and nothing else
has changed at the slaves or in the chain. There was a single start condition and no pulse, and the
bench is quiescent again. Between calls nothing is left of the fault: from then on the bench cannot be
told from any other one between calls that has a free bus, the same slaves and its board set alike. -/
theorem transact_stops_at_nack {m : Master} (hm : m.installed = true)
    (hconfig : m.bus.config = Bench.config) {b : Bench} (hb : b.Quiescent)
    {before after : List Message} {refused : Message}
    (hvalid : Message.Valid (before ++ refused :: after)) (hreads : ∀ w ∈ before, w.isRead = false)
    (hslaves : ∀ w ∈ before, ∃ s : Bench.Slave,
      b.slaves.get w.address = some s ∧ s.acknowledges ∧ s.stallAfter = none)
    (hrefused : b.acknowledged refused.address = false) :
    let chain := before ++ refused :: after
    let o := (m.transact chain).run Bench.respond b
    o.value = ⟨.error (.halted .nack), chain⟩ ∧
      o.state.slaves = Bench.Slaves.replay b.slaves before ∧
      o.state.tally.starts = b.tally.starts + 1 ∧ o.state.tally.pulses = b.tally.pulses ∧
      o.state.Quiescent ∧
      (b.Vacant → o.state.Vacant ∧
        ∀ fresh : Bench, fresh.Vacant → Bench.Fitted b fresh → fresh.slaves = o.state.slaves →
          Bench.Indistinct fresh o.state) := by
  intro chain o
  have hserve : ∀ w ∈ before, Bench.Slaves.Serve b.slaves w :=
    fun w hw => ⟨hvalid.2 w (List.mem_append_left _ hw), hslaves w hw⟩
  obtain ⟨b', hcarry, hrested, hmaster, hfitted⟩ :=
    Bench.ends_carry_refused hconfig hb.attended hvalid hreads hserve hrefused
  have hbegun : b.opened.attended.begun = b.tally.starts + 1 := if_pos hb.mode
  rw [hbegun] at hrested
  have hends := Bench.ends_transact hm hconfig hb hvalid hcarry
  obtain ⟨hquiescent, hstate, hstarts, hpulses⟩ := hrested.closed
  obtain ⟨hvalue, hlast⟩ : o.value = _ ∧ o.state = _ := Program.run_of_ends hends
  rw [hvalue, hlast]
  refine ⟨rfl, hstate, hstarts, hpulses, hquiescent, fun hbetween => ?_⟩
  have hvacant := hrested.vacant hmaster (hfitted.sclLow.trans hbetween.sclLow)
    (hfitted.sdaLow.trans hbetween.sdaLow)
  refine ⟨hvacant, fun fresh hfresh hboard hsame => ?_⟩
  -- the board of `b` is set again as it was before the session
  have hclosed : Bench.Fitted fresh b'.closed := by
    constructor
    case clockOn => exact hfresh.clockOn.symm
    case unmasked => exact hfresh.unmasked.symm
    case claimed => exact hfitted.claimed.trans hboard.claimed.symm
    case clockControl => exact hfitted.clockControl.trans hboard.clockControl.symm
    case padsToBus => exact hfitted.padsToBus.trans hboard.padsToBus.symm
    case sclLow => exact hvacant.sclLow.trans hfresh.sclLow.symm
    case sdaLow => exact hvacant.sdaLow.trans hfresh.sdaLow.symm
  exact hfresh.indistinct hvacant hclosed hsame.symm

/-- A bench with one register file, and a device that acknowledges nothing. -/
def mixedBench : Bench := registerBench.attach 0x50 .deaf

/-- A write that both addresses are sent in turn, and a read that is not reached. -/
def mixedChain : List Message :=
  [.write 0x48 [16, 7]] ++ .write 0x50 [16, 7] :: [.read 0x48 [0]]

theorem transact_stops_at_nack_on_mixedBench :
    mixedBench.Quiescent ∧ mixedBench.Vacant ∧ Message.Valid mixedChain ∧
      let o := (benchMaster.transact mixedChain).run Bench.respond mixedBench
      o.value = ⟨.error (.halted .nack), mixedChain⟩ ∧ o.state.register 0x48 16 = 7 ∧
        o.state.tally.starts = 1 ∧ o.state.tally.pulses = 0 ∧ o.state.Vacant ∧
        Bench.Indistinct { mixedBench with slaves := o.state.slaves } o.state := by
  unfold mixedChain
  have hb : mixedBench.Vacant := ⟨(Bench.dormant_empty.attach _ _).attach _ _, rfl⟩
  have hvalid : Message.Valid
      ([.write 0x48 [16, 7]] ++ .write 0x50 [16, 7] :: [.read 0x48 [0]]) := by decide
  have hdeaf : mixedBench.acknowledged 0x50 = false := by
    have hget : mixedBench.slaves.get 0x50 = some (.ofDevice .deaf) := ByteTable.get_set_self _ _ _
    simp [Bench.acknowledged, Bench.slave?, hget, Bench.Slave.ofDevice]
  have hslave : mixedBench.slaves.get 0x48 = some (.ofDevice (.registers [(16, 5)])) := by
    rw [mixedBench, Bench.attach, ByteTable.get_set_of_ne _ _ (by decide)]
    exact ByteTable.get_set_self _ _ _
  obtain ⟨hvalue, hslaves, hstarts, hpulses, -, hlater⟩ :=
    transact_stops_at_nack (m := benchMaster) rfl rfl hb.quiescent hvalid (by decide)
      (List.forall_mem_singleton.mpr ⟨_, hslave, rfl, rfl⟩) hdeaf
  obtain ⟨hvacant, hindistinct⟩ := hlater hb
  refine ⟨hb.quiescent, hb, hvalid, hvalue, ?_, hstarts, hpulses, hvacant, ?_⟩
  · have hstored := congrArg (fun slaves : Bench.Slaves => slaves.get 0x48) hslaves
    simp only [Bench.Slaves.replay, Bench.Slaves.afterMessage_write hslave,
      ByteTable.get_set_self] at hstored
    exact (Bench.register_of_get hstored 16).trans (ByteTable.get_set_self _ _ _)
  · -- the slaves are kept general, or their state after the run would be computed
    have hset (slaves : Bench.Slaves) : Bench.Vacant { mixedBench with slaves := slaves } ∧
        Bench.Fitted mixedBench { mixedBench with slaves := slaves } := by
      refine ⟨⟨?_, rfl⟩, ?_⟩
      all_goals constructor <;> rfl
    exact hindistinct _ (hset _).1 (hset _).2 rfl

end TwoWire
