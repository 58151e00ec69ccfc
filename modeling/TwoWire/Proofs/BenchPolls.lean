import TwoWire.Master
import TwoWire.Proofs.BenchReads
import TwoWire.Proofs.BenchStates
import TwoWire.Proofs.Execution
import TwoWire.Proofs.Progress
/-!
# Polling the bench

What a session sees of a bench, and what its polls do to the bench and to the transaction. While a
write goes on every poll sends the next word; while a read goes on every poll takes the next byte;
and once the bench is idle again a poll finds it at rest.
-/
namespace TwoWire.Bench
open Program (ends ends_bind_eq)

/-! ## Accesses -/

theorem readRegister_of_clockOn {b : Bench} (hc : b.clockOn = true) (register : Register) :
    b.readRegister register =
      match register with
      | .writeData => (0, b)
      | .clockControl => (b.clockControl, b)
      | .status => (b.errors ||| b.liveBits, { b with errors := 0 })
      | .readData => (b.pullByte.1.toUInt32, b.pullByte.2)
      | .interfaceSelect => (b.padBits, b) := by
  unfold readRegister
  exact if_pos hc

theorem ends_sample {b : Bench} (hc : b.clockOn = true) :
    Controller.sample.ends respond b = (⟨b.errors ||| b.liveBits⟩, { b with errors := 0 }) := by
  change ((⟨(b.readRegister .status).1⟩ : Status), (b.readRegister .status).2) = _
  rw [readRegister_of_clockOn hc]

theorem ends_pull {b : Bench} (hc : b.clockOn = true) :
    Controller.pull.ends respond b = b.pullByte := by
  change ((b.readRegister .readData).1.toUInt8, (b.readRegister .readData).2) = _
  rw [readRegister_of_clockOn hc]
  change (b.pullByte.1.toUInt32.toUInt8, b.pullByte.2) = _
  rw [UInt8.toUInt8_toUInt32]

theorem ends_push {b : Bench} (hc : b.clockOn = true) (word : UInt32) :
    (Controller.push word).ends respond b = ((), b.pushWord word) := by
  change ((), b.writeRegister .writeData word) = _
  unfold writeRegister
  rw [if_pos hc]

theorem ends_stopIf {b : Bench} (hc : b.clockOn = true) (due : Bool) :
    (Controller.stopIf due).ends respond b =
      ((), if due then b.pushWord FifoWord.stop.bits else b) := by
  cases due with
  | true => exact ends_push hc _
  | false => rfl

/-- The bench after the pause for which a low SCL asks before a word. -/
def paced (b : Bench) : Bench := if b.sclLow then b.delay 6 else b

theorem Alike.delay (b : Bench) (nanoseconds : UInt32) : Alike b (b.delay nanoseconds) :=
  ⟨b.edge, _, rfl⟩

theorem Alike.paced (b : Bench) : Alike b b.paced := by
  unfold Bench.paced
  split
  · exact .delay b 6
  · exact .refl b

theorem ends_padLevels {b : Bench} (hc : b.clockOn = true) :
    Controller.padLevels.ends respond b = (⟨!b.sclLow, !(b.sdaLow || b.sdaHeld)⟩, b) := by
  change ((⟨(b.readRegister .interfaceSelect).1 &&& 0x100 != 0,
    (b.readRegister .interfaceSelect).1 &&& 0x200 != 0⟩ : PadLevels),
    (b.readRegister .interfaceSelect).2) = _
  rw [readRegister_of_clockOn hc]
  change ((⟨b.padBits &&& 0x100 != 0, b.padBits &&& 0x200 != 0⟩ : PadLevels), b) = _
  unfold padBits
  cases b.sclLow <;> cases b.sdaLow || b.sdaHeld <;> rfl

theorem ends_pushPaced {b : Bench} (hc : b.clockOn = true) (word : UInt32) :
    (Controller.pushPaced word).ends respond b = ((), b.paced.pushWord word) := by
  rw [Controller.pushPaced, ends_bind_eq (ends_padLevels hc)]
  unfold paced
  by_cases hs : b.sclLow = true
  · simp only [hs, Bool.not_true, Bool.false_eq_true, if_false, if_true]
    exact ends_push (b := b.delay 6) hc word
  · rw [Bool.not_eq_true] at hs
    simp only [hs, Bool.not_false, Bool.false_eq_true, if_false, if_true]
    exact ends_push hc word

/-! ## Samples -/

/-- The bench after a poll has looked at it. -/
def attended (b : Bench) : Bench := { b with edge := ⟨false⟩, errors := 0 }

theorem Alike.attended {b : Bench} (h : b.errors = 0) : Alike b b.attended := by
  refine ⟨⟨false⟩, b.tally.delayed, ?_⟩
  unfold Bench.attended
  rw [← h]
  rfl

/-- What a sample shows while no error is latched. -/
theorem sample_liveBits (b : Bench) :
    let status : Status := ⟨b.liveBits⟩
    status.fault? = none ∧ status.has .writeFull = false ∧
      status.has .readFull = b.received.isSome ∧ status.isBusy = b.isActive := by
  unfold liveBits
  cases b.received.isSome <;> cases b.isActive <;> cases b.master <;> decide

/-- What a sample shows in any case. -/
theorem sample_latched {b : Bench} (h : Latches b.errors) :
    let status : Status := ⟨b.errors ||| b.liveBits⟩
    (status.fault? = none ↔ b.errors = 0) ∧ status.has .writeFull = false ∧
      status.has .readFull = b.received.isSome ∧ status.isBusy = b.isActive ∧
      status.meets (Status.Flag.busActive.mask ||| Status.Flag.writeFull.mask) = b.isActive := by
  obtain ⟨nacked, invalid, herrors⟩ := h
  unfold liveBits
  rw [herrors]
  cases nacked <;> cases invalid <;> cases b.received.isSome <;> cases b.isActive <;>
    cases b.master <;> decide

theorem Serving.isActive {b : Bench} (h : Serving b) : b.isActive = decide (b.mode ≠ .idle) := by
  unfold Bench.isActive sdaHeld
  rw [h.heldPulses, h.busActive]
  simp

theorem ends_takePending {bus : Bus} (hbus : bus.config = config) {b : Bench}
    (hc : b.clockOn = true) (hu : b.unmasked = true) :
    (Program.takePending bus.config.line).ends respond b =
      (b.edge.raised || b.levelRaised, { b with edge := ⟨false⟩ }) := by
  change b.takePending bus.config.line = _
  unfold takePending
  rw [hbus, if_pos ⟨rfl, hu, hc⟩]
  rfl

/-- One poll of a bench. -/
theorem ends_poll {bus : Bus} (hbus : bus.config = config) {b : Bench} (hc : b.clockOn = true)
    (hu : b.unmasked = true) (t : Transaction) :
    let status : Status := ⟨b.errors ||| b.liveBits⟩
    (Session.poll bus t).ends respond b =
      if (b.edge.raised || b.levelRaised) || status.fault?.isSome then
        let o := (t.onEvent status).ends respond b.attended
        (⟨!status.isBusy && o.1.phase.isTerminal, o.1⟩, o.2)
      else (⟨!status.isBusy, t⟩, b.attended) := by
  intro status
  have hsample := ends_sample (b := { b with edge := ⟨false⟩ }) hc
  rw [Session.poll, ends_bind_eq (ends_takePending hbus hc hu), ends_bind_eq hsample,
    Program.ends_ite, Program.ends_bind]
  rfl

/-- One poll of a bench that serves. -/
theorem ends_poll_serving {bus : Bus} (hbus : bus.config = config) {b : Bench} (hb : Serving b)
    (t : Transaction) :
    (Session.poll bus t).ends respond b =
      if b.edge.raised || b.levelRaised then
        let o := (t.onEvent ⟨b.liveBits⟩).ends respond b.attended
        (⟨!b.isActive && o.1.phase.isTerminal, o.1⟩, o.2)
      else (⟨!b.isActive, t⟩, b.attended) := by
  obtain ⟨hclean, -, -, hbusy⟩ := sample_liveBits b
  rw [ends_poll hbus hb.clockOn hb.unmasked, hb.errors, UInt32.zero_or, hclean, hbusy]
  simp only [Option.isSome_none, Bool.or_false]

/-! ## Events -/

theorem ends_onEvent {σ : Type} {hw : Hardware σ} {s : σ} {t : Transaction} {status : Status}
    (hlive : t.isInert = false) (hclean : status.fault? = none) :
    (t.onEvent status).ends hw s =
      let fed := (t.feedOn status).ends hw s
      let drained := (fed.1.2.drainOn status).ends hw fed.2
      (drained.1.advance fed.1.1, drained.2) := by
  rw [Transaction.onEvent, if_neg (by rw [hlive]; exact Bool.false_ne_true), hclean]
  simp only [Program.ends_bind, Program.ends_pure]

/-- An event whose sample shows a fault halts the transaction. -/
theorem ends_onEvent_fault {σ : Type} {hw : Hardware σ} {s : σ} {t : Transaction} {status : Status}
    {fault : Fault} (hlive : t.isInert = false) (hfault : status.fault? = some fault) :
    (t.onEvent status).ends hw s = (t.halt fault, s) := by
  rw [Transaction.onEvent, if_neg (by simp [hlive]), hfault]
  rfl

section
variable {b : Bench} {t : Transaction} {status : Status}

/-- An event of a write sends the next word. -/
theorem ends_onEvent_send (hc : b.clockOn = true) (hlive : t.isInert = false)
    (hclean : status.fault? = none) (hroom : status.has .writeFull = false)
    (hempty : status.has .readFull = false) {word : FifoWord} (hn : t.nextWord? = some word) :
    (t.onEvent status).ends respond b =
      (t.sent.advance true, b.paced.pushWord word.bits) := by
  have hfeed : (t.feedOn status).ends respond b =
      ((true, t.sent), b.paced.pushWord word.bits) := by
    rw [Transaction.feedOn, hroom, Transaction.feed, hn]
    exact ends_bind_eq (ends_pushPaced hc word.bits) _
  rw [ends_onEvent hlive hclean, hfeed]
  simp only [Transaction.drainOn, hempty, Bool.false_eq_true, if_false, Program.ends_pure]

theorem ends_feedOn_rest (hroom : status.has .writeFull = false) (hn : t.nextWord? = none) :
    (t.feedOn status).ends respond b = ((false, t), b) := by
  rw [Transaction.feedOn, hroom, Transaction.feed, hn]
  rfl

/-- With nothing to send and nothing received an event only settles the phase. -/
theorem ends_onEvent_rest (hlive : t.isInert = false) (hclean : status.fault? = none)
    (hroom : status.has .writeFull = false) (hempty : status.has .readFull = false)
    (hn : t.nextWord? = none) :
    (t.onEvent status).ends respond b = (t.advance false, b) := by
  rw [ends_onEvent hlive hclean, ends_feedOn_rest hroom hn]
  simp only [Transaction.drainOn, hempty, Bool.false_eq_true, if_false, Program.ends_pure]

/-- An event of a read stores the received byte, after a stop request if one is due. -/
theorem ends_onEvent_store (hlive : t.isInert = false) (hclean : status.fault? = none)
    (hroom : status.has .writeFull = false) (hfull : status.has .readFull = true)
    (hn : t.nextWord? = none) {position : Nat} (hs : t.slot? = some position) {b' : Bench}
    (hstop : (Controller.stopIf (t.stopDue position)).ends respond b = ((), b'))
    (hc : b'.clockOn = true) :
    (t.onEvent status).ends respond b =
      ((t.received position b'.pullByte.1).advance false, b'.pullByte.2) := by
  have hdrain : (t.drainOn status).ends respond b =
      (t.received position b'.pullByte.1, b'.pullByte.2) := by
    rw [Transaction.drainOn, if_pos hfull, Transaction.drain, hs]
    change Program.ends respond (Controller.stopIf (t.stopDue position) >>= _) b = _
    rw [ends_bind_eq hstop, ends_bind_eq (ends_pull hc)]
    rfl
  rw [ends_onEvent hlive hclean, ends_feedOn_rest hroom hn]
  simp only [hdrain]

/-- A byte without a slot is thrown away. -/
theorem ends_onEvent_discard (hc : b.clockOn = true) (hlive : t.isInert = false)
    (hclean : status.fault? = none) (hroom : status.has .writeFull = false)
    (hfull : status.has .readFull = true) (hn : t.nextWord? = none) (hs : t.slot? = none)
    (hu : t.unrequested = 0) :
    (t.onEvent status).ends respond b = (t.discarded.advance false, b.pullByte.2) := by
  have hdrain : (t.drainOn status).ends respond b = (t.discarded, b.pullByte.2) := by
    rw [Transaction.drainOn, if_pos hfull, Transaction.drain, hs, hu]
    exact ends_bind_eq (ends_pull hc) _
  rw [ends_onEvent hlive hclean, ends_feedOn_rest hroom hn]
  simp only [hdrain]

end

/-! ## Waiting -/

section
variable {σ : Type} {hw : Hardware σ} {s s' : σ} {bus : Bus} {idle : Nat} {t : Transaction}
  {seen : Session.Watched}

theorem ends_settle_quiet (hi : idle < Session.pollLimit)
    (hp : (Session.poll bus t).ends hw s = (seen, s')) (hq : seen.quiet = true) :
    (Session.settle bus idle t).ends hw s = (seen, s') := by
  rw [Session.settle_eq, if_pos hi, ends_bind_eq hp, if_pos hq]
  rfl

theorem ends_settle_moved (hi : idle < Session.pollLimit)
    (hp : (Session.poll bus t).ends hw s = (seen, s')) (hq : seen.quiet = false)
    (hm : seen.transaction.moved ≠ t.moved) :
    (Session.settle bus idle t).ends hw s =
      (Session.settle bus 0 seen.transaction).ends hw s' := by
  rw [Session.settle_eq, if_pos hi, ends_bind_eq hp,
    if_neg (by rw [hq]; exact Bool.false_ne_true), if_neg hm]

theorem ends_settle_still (hi : idle < Session.pollLimit)
    (hp : (Session.poll bus t).ends hw s = (seen, s')) (hq : seen.quiet = false)
    (hm : seen.transaction.moved = t.moved) :
    (Session.settle bus idle t).ends hw s =
      (Session.settle bus (idle + 1) seen.transaction).ends hw
        ((Session.backoff idle).ends hw s').2 := by
  rw [Session.settle_eq, if_pos hi, ends_bind_eq hp,
    if_neg (by rw [hq]; exact Bool.false_ne_true), if_pos hm, Program.ends_bind]

theorem ends_settle_limit (hi : Session.pollLimit ≤ idle) :
    (Session.settle bus idle t).ends hw s = (⟨false, t⟩, s) := by
  rw [Session.settle_eq, if_neg (Nat.not_lt.mpr hi), Session.reportGivenUp, Program.ends_bind,
    Program.ends_debug]
  rfl

end

/-! ## Sessions -/

/-- Nothing goes on at the bench and nothing is pending. The registers and pointers of its slaves
may be anything. -/
structure Quiescent (b : Bench) : Prop extends Coherent b where
  mode : b.mode = .idle
  busActive : b.busActive = false
  heldPulses : b.heldPulses = 0
  errors : b.errors = 0
  edge : b.edge.raised = false
  received : b.received = none

theorem Quiescent.stalled {b : Bench} (h : Quiescent b) : b.stalled = false := by
  rw [← Bool.not_eq_true]
  exact fun hs => h.stalls hs h.mode

/-- The bench as a session finds it. -/
def opened (b : Bench) : Bench := (b.enableClock clock).2.unmask

/-- The bench as a session leaves it. -/
def closed (b : Bench) : Bench := b.mask.disableClock clock

theorem Quiescent.opened {b : Bench} (h : Quiescent b) : Open b.opened where
  clockOn := rfl
  unmasked := rfl
  stalled := h.stalled
  errors := h.errors
  heldPulses := h.heldPulses
  busActive := by
    change b.busActive = decide (b.mode ≠ .idle)
    rw [h.busActive, h.mode]
    rfl
  master hm := absurd h.mode hm
  mode := by
    change b.mode ≠ .read
    rw [h.mode]
    decide
  received := h.received

/-- What is done with clock and interrupt line held. -/
theorem ends_hold {α : Type} {bus : Bus} (hbus : bus.config = config) {b b' : Bench}
    {refused a : α} {body : Program α} (h : body.ends respond b.opened = (a, b')) :
    (Session.hold bus refused body).ends respond b = (a, b'.closed) := by
  have hgranted : (Program.enableClock bus.config.clock).ends respond b =
      (true, (b.enableClock clock).2) := by
    rw [hbus]
    rfl
  have hunmask : (Program.unmaskLine bus.config.line).ends respond (b.enableClock clock).2 =
      ((), b.opened) := rfl
  rw [Session.hold, ends_bind_eq hgranted, if_pos rfl, ends_bind_eq hunmask, ends_bind_eq h, hbus]
  rfl

theorem ends_sample_serving {b : Bench} (h : Serving b) :
    Controller.sample.ends respond b = (⟨b.liveBits⟩, b) := by
  have hsame : ({ b with errors := 0 } : Bench) = b := by
    rw [← h.errors]
  rw [ends_sample h.clockOn, hsame, h.errors, UInt32.zero_or]

theorem ends_reportUnrequested {σ : Type} (hw : Hardware σ) (s : σ) (bus : Bus)
    (t : Transaction) : (Session.reportUnrequested bus t).ends hw s = ((), s) := by
  unfold Session.reportUnrequested
  split
  · exact Program.ends_debug hw _ _ s
  · rfl

/-- A transaction without a fault answers with the messages that it has moved in full. -/
theorem ends_conclude {σ : Type} (hw : Hardware σ) (s : σ) (bus : Bus) {t : Transaction}
    (hf : t.fault = none) :
    (Session.conclude bus t).ends hw s = (⟨.ok t.completed, t.chain⟩, s) := by
  have hreport : (Session.reportIncomplete bus t).ends hw s = ((), s) := by
    unfold Session.reportIncomplete
    split
    · exact Program.ends_debug hw _ _ s
    · rfl
  rw [Session.conclude, hf]
  exact ends_bind_eq hreport _

/-- A session sends the first word of its chain by itself and then waits. -/
theorem ends_carry {bus : Bus} {b b' : Bench} (hb : Serving b) (hr : b.received = none)
    {chain : List Message} (hc : chain ≠ []) {word : FifoWord}
    (hn : (Transaction.start chain).nextWord? = some word) {watched : Session.Watched}
    (h : (Session.settle bus 0 ((Transaction.start chain).sent.advance true)).ends respond
      (b.paced.pushWord word.bits) = (watched, b')) :
    (Session.carry bus chain).ends respond b =
      (if watched.quiet then Session.conclude bus watched.transaction
        else Session.abandon bus watched.transaction).ends respond b' := by
  obtain ⟨hclean, hroom, hfull, -⟩ := sample_liveBits b
  rw [hr] at hfull
  have hfirst := ends_onEvent_send hb.clockOn (Transaction.running_start hc).isInert hclean hroom
    hfull hn
  rw [Session.carry, ends_bind_eq (ends_sample_serving hb), ends_bind_eq hfirst, ends_bind_eq h,
    ends_bind_eq (ends_reportUnrequested _ _ _ _)]

/-- One poll without a transaction. -/
theorem ends_pollIdle {bus : Bus} (hbus : bus.config = config) {b : Bench}
    (hc : b.clockOn = true) (hu : b.unmasked = true) (he : b.errors = 0) :
    (Session.pollIdle bus).ends respond b = (b.isActive, b.attended) := by
  obtain ⟨-, -, -, hbusy⟩ := sample_liveBits b
  have hsample := ends_sample (b := { b with edge := ⟨false⟩ }) hc
  rw [Session.pollIdle, ends_bind_eq (ends_takePending hbus hc hu), ends_bind_eq hsample]
  change ((⟨b.errors ||| b.liveBits⟩ : Status).isBusy, b.attended) = _
  rw [he, UInt32.zero_or, hbusy]

/-- An idle bench is found idle at once. -/
theorem ends_awaitIdle {bus : Bus} (hbus : bus.config = config) {b : Bench} (h : Serving b)
    (hm : b.mode = .idle) :
    (Session.awaitIdle bus Session.pollLimit).ends respond b = (true, b.attended) := by
  have hidle : b.isActive = false := by
    rw [h.isActive, hm]
    rfl
  have hpoll := ends_pollIdle hbus h.clockOn h.unmasked h.errors
  rw [hidle] at hpoll
  rw [Session.pollLimit, Session.awaitIdle, ends_bind_eq hpoll]
  rfl

theorem ends_backoff (idle : Nat) (b : Bench) :
    ∃ b', (Session.backoff idle).ends respond b = ((), b') ∧ Alike b b' ∧ b'.edge = b.edge := by
  unfold Session.backoff
  split
  · exact ⟨_, rfl, .delay b _, rfl⟩
  · exact ⟨b, rfl, .refl b, rfl⟩

/-- A bench whose bus is not free is polled until the wait is given up. -/
theorem ends_awaitIdle_active {bus : Bus} (hbus : bus.config = config) {b : Bench}
    (hc : b.clockOn = true) (hu : b.unmasked = true) (he : b.errors = 0)
    (ha : b.isActive = true) (tries : Nat) :
    ∃ b', (Session.awaitIdle bus tries).ends respond b = (false, b') ∧ Alike b b' := by
  induction tries generalizing b with
  | zero => exact ⟨b, ends_bind_eq (Program.ends_debug respond bus.logger _ b) _, .refl b⟩
  | succ tries ih =>
    have hpoll := ends_pollIdle hbus hc hu he
    rw [ha] at hpoll
    obtain ⟨b₁, hpause, halike, -⟩ :=
      ends_backoff (Session.pollLimit - (tries + 1)) b.attended
    have hready := (Alike.attended he).trans halike
    obtain ⟨edge, delayed, rfl⟩ := hready
    obtain ⟨b', hwait, hend⟩ := ih (b := b.retimed edge delayed) hc hu he ha
    refine ⟨b', ?_, Alike.trans ⟨edge, delayed, rfl⟩ hend⟩
    rw [Session.awaitIdle, ends_bind_eq hpoll, if_pos rfl, ends_bind_eq hpause]
    exact hwait

/-- A call on a quiescent bench comes to what the transaction of its chain comes to. -/
theorem ends_transact {m : Master} (hm : m.installed = true) (hbus : m.bus.config = config)
    {b b' : Bench} (h : Quiescent b) {chain : List Message} (hchain : Message.Valid chain)
    {answer : Answer Nat}
    (hcarry : (Session.carry m.bus chain).ends respond b.opened.attended = (answer, b')) :
    (m.transact chain).ends respond b = (answer, b'.closed) := by
  have hidle := ends_awaitIdle hbus h.opened.toServing h.mode
  rw [Master.transact, if_pos hm, if_pos hchain]
  refine ends_hold hbus ?_
  rw [Session.transact, ends_bind_eq hidle, if_pos rfl]
  exact hcarry

end TwoWire.Bench
