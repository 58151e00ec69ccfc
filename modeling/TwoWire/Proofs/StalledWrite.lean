import TwoWire.Proofs.Attempts
import TwoWire.Proofs.BenchClear
import TwoWire.Proofs.Delivery
/-!
# Writes to a slave that stalls

A slave that stalls stops taking bytes and holds SDA. The controller then asks for nothing more, so
the wait is given up and the bus is cleared, and the message counts as moved in full if the last
byte that was sent is its last one. A byte that is sent may still be the one at which the slave
stalled: a write that stalls at its last byte succeeds without it.
-/
namespace TwoWire

theorem Message.valid_singleton {m : Message} (h : m.address ≤ 0x7f) : Valid [m] := by
  refine ⟨List.cons_ne_nil m [], fun w hw => ?_⟩
  rw [List.mem_singleton.mp hw]
  exact h

namespace Bench
open Program (ends ends_bind_eq)

variable {bus : Bus} {b : Bench} {t : Transaction}

/-! ## A bench that is held -/

/-- A slave has stalled and holds SDA. -/
structure Held (b : Bench) : Prop where
  clockOn : b.clockOn = true
  unmasked : b.unmasked = true
  stalled : b.stalled = true
  errors : b.errors = 0
  heldPulses : b.heldPulses = 1

theorem Held.alike {b b' : Bench} (h : Held b) (ha : Alike b b') : Held b' := by
  obtain ⟨edge, delayed, rfl⟩ := ha
  exact ⟨h.clockOn, h.unmasked, h.stalled, h.errors, h.heldPulses⟩

theorem Held.isActive (h : Held b) : b.isActive = true := by
  unfold Bench.isActive sdaHeld
  rw [h.heldPulses]
  exact Bool.or_true _

theorem isStallDue_of_limit {s : Slave} (hs : b.slaves.get b.target = some s)
    (hlimit : s.stallAfter = some b.carried) : b.isStallDue = true := by
  unfold isStallDue slave?
  rw [hs]
  change s.stallAfter.any _ = true
  rw [hlimit]
  exact decide_eq_true (Nat.le_refl b.carried)

/-- The byte that comes when a stall is due is lost. -/
theorem pushWord_of_stall {s : Slave} (h : Writing b) (hs : b.slaves.get b.target = some s)
    (hlimit : s.stallAfter = some b.carried) (byte : UInt8) (last : Bool) :
    b.pushWord (FifoWord.data byte last).bits = b.stall := by
  rw [pushWord_data h.stalled]
  unfold data
  rw [h.mode, isStallDue_of_limit hs hlimit]
  rfl

/-- It is lost at another time, too, and nothing else is different then. -/
theorem pushWord_of_stall_alike {b' : Bench} {s : Slave} (h : Writing b)
    (hs : b.slaves.get b.target = some s) (hlimit : s.stallAfter = some b.carried)
    (ha : Alike b b') (byte : UInt8) (last : Bool) :
    b'.pushWord (FifoWord.data byte last).bits = b'.stall ∧ Alike b.stall b'.stall := by
  have hwriting := h.alike ha
  obtain ⟨edge, delayed, rfl⟩ := ha
  exact ⟨pushWord_of_stall hwriting hs hlimit byte last, edge, delayed, rfl⟩

theorem held_stall (h : Writing b) : Held b.stall :=
  ⟨h.clockOn, h.unmasked, rfl, h.errors, rfl⟩

/-- A poll of a bench that is held finds no event. -/
theorem ends_poll_held (hbus : bus.config = config) (hb : Held b) (he : b.edge.raised = false)
    (t : Transaction) : (Session.poll bus t).ends respond b = (⟨false, t⟩, b.attended) := by
  obtain ⟨hclean, -, -, hbusy⟩ := sample_liveBits b
  have hlevel : b.levelRaised = false := by
    unfold levelRaised
    rw [hb.stalled, Bool.not_true, Bool.and_false]
  have hpoll := ends_poll hbus hb.clockOn hb.unmasked t
  dsimp only at hpoll
  rw [hb.errors, UInt32.zero_or, he, hlevel, hclean, hbusy, hb.isActive] at hpoll
  exact hpoll

/-- A bench that is held is polled until the wait is given up. -/
theorem ends_settle_held (hbus : bus.config = config) (hb : Held b) (he : b.edge.raised = false)
    {idle left : Nat} (hleft : idle + left = Session.pollLimit) :
    ∃ b', (Session.settle bus idle t).ends respond b = (⟨false, t⟩, b') ∧ Alike b b' := by
  induction left generalizing b idle with
  | zero => exact ⟨b, ends_settle_limit (by omega), .refl b⟩
  | succ left ih =>
    have hattended := Alike.attended hb.errors
    have hstill := ends_settle_still (show idle < Session.pollLimit by omega)
      (ends_poll_held hbus hb he t) rfl rfl
    obtain ⟨b₁, hpause, halike, hedge⟩ := ends_backoff idle b.attended
    have hlowered : b₁.edge.raised = false := by
      rw [hedge]
      rfl
    obtain ⟨b', hsettle, halike'⟩ :=
      ih (hb.alike (hattended.trans halike)) hlowered
        (show idle + 1 + left = Session.pollLimit by omega)
    refine ⟨b', ?_, (hattended.trans halike).trans halike'⟩
    rw [hstill, hpause]
    exact hsettle

/-- The bus is cleared with one pulse, and the answer counts what was moved until then. -/
theorem ends_abandon (hbus : bus.config = config) (hb : Held b) (hf : t.fault = none) :
    ∃ b', (Session.abandon bus t).ends respond b = (⟨.ok t.completed, t.chain⟩, b') ∧
      Clocked b 1 b' := by
  obtain ⟨b', hclear, hrestored⟩ :=
    ends_clear hbus hb.clockOn (hb.errors ▸ latches_zero) hb.isActive
  have hneeded : min b.pulsesNeeded BusClear.pulseLimit = 1 := by
    unfold pulsesNeeded
    rw [hb.heldPulses]
    rfl
  rw [hneeded] at hrestored
  rw [if_pos (by rw [hb.heldPulses]; decide)] at hclear
  refine ⟨b', ?_, hrestored.toClocked⟩
  rw [Session.abandon, ends_bind_eq (Program.ends_debug respond bus.logger _ b),
    ends_bind_eq hclear]
  exact ends_conclude respond b' bus (t := t.giveUp) hf

/-- Once a bench has been clocked often enough it is at rest. -/
theorem Clocked.rested {b' : Bench} {issued : Nat} (h : Clocked b issued b')
    (hc : b.clockOn = true) (hu : b.unmasked = true) (hheld : b.heldPulses ≤ issued) :
    Rested b' b.slaves b.tally.starts (b.tally.pulses + issued) where
  clockOn := h.clockOn.trans hc
  unmasked := h.unmasked.trans hu
  stalled := h.stalled
  errors := h.errors
  heldPulses := by rw [h.heldPulses, Nat.sub_eq_zero_of_le hheld]
  busActive := by rw [h.busActive, h.mode]; rfl
  master hm := absurd h.mode hm
  mode := h.mode
  received := h.received
  slaves := h.slaves
  starts := h.starts
  pulses := h.pulses

theorem Held.rested {b' : Bench} (h : Held b) (hc : Clocked b 1 b') :
    Rested b' b.slaves b.tally.starts (b.tally.pulses + 1) :=
  hc.rested h.clockOn h.unmasked (Nat.le_of_eq h.heldPulses)

/-- The wait for a transaction whose next word meets a stall, and what the session makes of it. -/
theorem ends_abandon_stalled (hbus : bus.config = config) {b₁ : Bench} (h : Writing b₁) {s : Slave}
    (hs : b₁.slaves.get b₁.target = some s) (hlimit : s.stallAfter = some b₁.carried)
    (halike : Alike b₁ b) (ht : t.Running) {byte : UInt8} {last : Bool}
    (hn : t.nextWord? = some (.data byte last)) :
    let t' := t.sent.advance true
    ∃ b' b'', (Session.settle bus 0 t).ends respond b = (⟨false, t'⟩, b') ∧
      (Session.abandon bus t').ends respond b' = (⟨.ok t'.completed, t'.chain⟩, b'') ∧
      Rested b'' b₁.stall.slaves b₁.tally.starts (b₁.tally.pulses + 1) := by
  intro t'
  have hnow := h.alike halike
  have hready := (halike.trans (.attended hnow.errors)).trans (.paced b.attended)
  let ready := b.attended.paced
  have hwriting : Writing ready := h.alike hready
  have hedge : ready.edge.raised = false := by
    change b.attended.paced.edge.raised = false
    unfold paced
    split <;> rfl
  obtain ⟨hpush, hstall⟩ := pushWord_of_stall_alike h hs hlimit hready byte last
  have hstep := ends_settle_send hbus hnow ht hn
  rw [hpush] at hstep
  obtain ⟨b', hsettle, halike'⟩ :=
    ends_settle_held (t := t') hbus (held_stall hwriting) hedge (Nat.zero_add _)
  have hheld := (held_stall hwriting).alike halike'
  have hfault : t'.fault = none := (ht.send hn).1.fault
  obtain ⟨b'', habandon, hclocked⟩ := ends_abandon hbus hheld hfault
  refine ⟨b', b'', hstep.trans hsettle, habandon, ?_⟩
  have hrested := hheld.rested hclocked
  have hkept := hstall.trans halike'
  rw [hkept.slaves, hkept.starts, hkept.pulses] at hrested
  exact hrested

/-! ## One attempt -/

/-- The words of a write up to the byte at which its slave stalls. -/
theorem took_before_stall {b₀ : Bench} {address : UInt8} (h : Addressed b address b₀)
    (hidle : b.mode = .idle) {s : Slave} (hs : b.slaves.get address = some s)
    {before : List UInt8} (hlimit : s.stallAfter = some before.length) :
    let b₁ := pushAll b₀ (Message.dataWords false before)
    Follows b₀ (Message.dataWords false before) ∧ Took b₀ false before b₁ ∧
      b₁.slaves.get b₁.target = some (s.write before) ∧
      (s.write before).stallAfter = some b₁.carried ∧
      b₁.stall.slaves = b.slaves.set address (some (s.write before).calm) := by
  intro b₁
  have hcarried : b₀.carried = 0 := h.carried.trans (if_pos (.inr hidle))
  have hget : b₀.slaves.get b₀.target = some s := by
    rw [h.slaves, h.target, hs]
  have hendures : s.Endures (b₀.carried + before.length) := by
    intro limit hl
    rw [hlimit] at hl
    cases hl
    exact Nat.le_of_eq (by rw [hcarried, Nat.zero_add])
  obtain ⟨hfollows, htook⟩ := took_dataWords h.toWriting hget false before hendures
  have hslaves : b₁.slaves = b.slaves.set address (some (s.write before)) := by
    rw [htook.slaves s hget, h.slaves, h.target, h.aimed]
    rfl
  have htarget : b₁.target = address := htook.target.trans h.target
  have hstored : b₁.slaves.get b₁.target = some (s.write before) := by
    rw [hslaves, htarget, ByteTable.get_set_self]
  refine ⟨hfollows, htook, hstored, ?_, ?_⟩
  · rw [Slave.stallAfter_write, hlimit, htook.carried, hcarried, Nat.zero_add]
  · change b₁.slaves.set b₁.target ((b₁.slaves.get b₁.target).map Slave.calm) = _
    rw [hstored, hslaves, htarget, ByteTable.set_set]
    rfl

/-- What lies ahead of a chain that begins with a write, up to the byte at which its slave stalls. -/
theorem ahead_start_write (address : UInt8) (before after : List UInt8) (byte : UInt8)
    (more : List Message) :
    let m := Message.write address (before ++ byte :: after)
    (Transaction.start (m :: more)).ahead =
      (m.addressWord more.isEmpty :: Message.dataWords false before).map .word ++
        .word (.data byte (more.isEmpty && after.isEmpty)) ::
          ((Message.dataWords more.isEmpty after).map .word ++ Message.itinerary 1 more) := by
  intro m
  have hbody : m.body 0 more.isEmpty =
      (Message.dataWords false before ++ Message.dataWords more.isEmpty (byte :: after)).map
        .word := by
    rw [← Message.dataWords_append more.isEmpty before (List.cons_ne_nil byte after)]
    rfl
  rw [Transaction.ahead_start, Message.itinerary, Message.legs, hbody, List.map_append,
    List.cons_append, List.append_assoc]
  rfl

/-- An attempt whose slave stalls within a first write stores the bytes before the stall. The bus is
free again after it, and all messages count as moved in full exactly if the slave stalled at the very
last byte. -/
theorem ends_carry_stalled (hbus : bus.config = config) (h : Open b) (hidle : b.mode = .idle)
    {address : UInt8} {before after : List UInt8} {byte : UInt8} {more : List Message}
    (hvalid : Message.Valid (.write address (before ++ byte :: after) :: more)) {s : Slave}
    (hs : b.slaves.get address = some s) (ha : s.acknowledges)
    (hlimit : s.stallAfter = some before.length) :
    let chain := Message.write address (before ++ byte :: after) :: more
    ∃ completed b', (Session.carry bus chain).ends respond b = (⟨.ok completed, chain⟩, b') ∧
      (completed = chain.length ↔ after = [] ∧ more = []) ∧
      Rested b' (b.slaves.set address (some (s.write before).calm)) b.begun
        (b.tally.pulses + 1) := by
  intro chain
  let m := Message.write address (before ++ byte :: after)
  have ht : address ≤ 0x7f := hvalid.2 m List.mem_cons_self
  have hlength : m.length ≠ 0 := by
    change (before ++ byte :: after).length ≠ 0
    rw [List.length_append, List.length_cons]
    omega
  have haddressed : Addressed b address (b.pushWord (m.addressWord more.isEmpty).bits) :=
    addressed_addressWord (m := m) h rfl ht (acknowledged_of_get hs ha)
      (by rw [decide_eq_false hlength, Bool.and_false])
  obtain ⟨hfollows, htook, hstored, hdue, hslaves⟩ :=
    took_before_stall haddressed hidle hs hlimit
  -- the address and the bytes before the stall
  have hahead := ahead_start_write address before after byte more
  obtain ⟨t, b₁, hrun, hchain, hahead₁, halike, -, hcarry⟩ :=
    ends_carry_leading hbus h hvalid hahead hfollows
  -- the byte at which the slave stalls
  have hnext := hrun.nextWord?_eq hahead₁
  obtain ⟨hrun', hahead'⟩ := hrun.send hnext
  rw [hahead₁] at hahead'
  obtain ⟨b', b'', hwait, habandon, hrested⟩ :=
    ends_abandon_stalled hbus htook.writing hstored hdue halike hrun hnext
  have hchain' : (t.sent.advance true).chain = chain := by
    rw [Transaction.chain_advance, Transaction.chain_sent]
    exact hchain
  rw [hslaves, htook.tally, haddressed.starts, haddressed.pulses] at hrested
  refine ⟨(t.sent.advance true).completed, b'', ?_, ?_, hrested⟩
  · rw [hcarry hwait, if_neg Bool.false_ne_true, habandon, hchain']
  · have hcompleted := hrun'.completed_iff
    rw [hchain', ← (List.cons.inj hahead').2, List.append_eq_nil_iff, List.map_eq_nil_iff]
      at hcompleted
    rw [hcompleted]
    refine and_congr ?_ ?_
    · cases after with
      | nil => exact iff_of_true rfl rfl
      | cons next rest => exact iff_of_false nofun nofun
    · cases more with
      | nil => exact iff_of_true rfl rfl
      | cons next rest => exact iff_of_false nofun nofun

theorem Quiescent.delay (h : Quiescent b) (nanoseconds : UInt32) :
    Quiescent (b.delay nanoseconds) :=
  ⟨h.congr rfl rfl rfl, h.mode, h.busActive, h.heldPulses, h.errors, h.edge, h.received⟩

/-! ## Writes -/

section
variable {m : Master} {address : UInt8} {s : Slave} (hm : m.installed = true)
  (hconfig : m.bus.config = config) (hb : Quiescent b) (ht : address ≤ 0x7f)
  (hs : b.slaves.get address = some s) (ha : s.acknowledges)
include hm hconfig hb ht hs ha

/-- An attempt at a write in which no stall comes up stores all of it. -/
theorem ends_transact_write {bytes : List UInt8} (he : s.Endures bytes.length) :
    let chain := [Message.write address bytes]
    ∃ b', (m.transact chain).ends respond b = (⟨.ok 1, chain⟩, b') ∧ Quiescent b' ∧
      b'.slaves = b.slaves.set address (some (s.write bytes)) := by
  intro chain
  have hopen := hb.attended
  have hidle : b.opened.attended.mode = .idle := hb.mode
  have hcarried : (b.opened.attended.select address).carried = 0 := if_pos (.inr hidle)
  have hframe : Message.frame ([] ++ [Message.write address bytes]) =
      (Message.write address bytes).addressWord true :: Message.dataWords true bytes :=
    List.append_nil _
  have hendures : s.Endures ((b.opened.attended.select address).carried + bytes.length) := by
    rw [hcarried, Nat.zero_add]
    exact he
  have hnone : ∀ w ∈ ([] : List Message), w.isRead = false := nofun
  obtain ⟨hfollows, harrived⟩ := arrived_of_write hopen ht hs ha hendures
  have hvalid : Message.Valid chain := Message.valid_singleton ht
  obtain ⟨b', hcarry, hrested⟩ :=
    ends_carry_arrived hconfig hopen hnone hvalid.2 hframe hfollows harrived
  obtain ⟨b'', hends, hquiescent, hslaves, -⟩ :=
    ends_transact_rested hm hconfig hb hvalid hcarry hrested
  exact ⟨b'', hends, hquiescent, hslaves.trans (Slaves.afterMessage_write hs bytes)⟩

/-- A write in which no stall comes up needs a single attempt. -/
theorem ends_write_whole {bytes : List UInt8} (he : s.Endures bytes.length) :
    ∃ b', (m.write address bytes).ends respond b = (⟨.ok (), [.write address bytes]⟩, b') ∧
      Quiescent b' ∧ b'.slaves = b.slaves.set address (some (s.write bytes)) := by
  obtain ⟨b', hends, hrest, hslaves⟩ := ends_transact_write hm hconfig hb ht hs ha he
  refine ⟨b', ?_, hrest, hslaves⟩
  rw [Master.write, Master.ends_transactRetrying hm]
  exact Master.ends_persist_done hends _ _

variable {before : List UInt8} (hlimit : s.stallAfter = some before.length) (byte : UInt8)
include hlimit

/-- An attempt whose slave stalls within a first write stores the bytes before the stall. -/
theorem ends_transact_stalled (after : List UInt8) (more : List Message)
    (hmore : ∀ w ∈ more, w.address ≤ 0x7f) :
    let chain := Message.write address (before ++ byte :: after) :: more
    ∃ completed b', (m.transact chain).ends respond b = (⟨.ok completed, chain⟩, b') ∧
      (completed = chain.length ↔ after = [] ∧ more = []) ∧ Quiescent b' ∧
      b'.slaves = b.slaves.set address (some (s.write before).calm) ∧
      b'.tally.starts = b.tally.starts + 1 ∧ b'.tally.pulses = b.tally.pulses + 1 := by
  intro chain
  have hvalid : Message.Valid chain :=
    ⟨List.cons_ne_nil _ _, List.forall_mem_cons.mpr ⟨ht, hmore⟩⟩
  obtain ⟨completed, b', hcarry, hcompleted, hrested⟩ :=
    ends_carry_stalled hconfig hb.attended hb.mode hvalid hs ha hlimit
  obtain ⟨b'', hends, hquiescent⟩ := ends_transact_rested hm hconfig hb hvalid hcarry hrested
  exact ⟨completed, b'', hends, hcompleted, hquiescent⟩

/-- A write whose slave stalls at the last byte succeeds without that byte. -/
theorem ends_write_cut :
    let bytes := before ++ [byte]
    ∃ b', (m.write address bytes).ends respond b = (⟨.ok (), [.write address bytes]⟩, b') ∧
      Quiescent b' ∧ b'.slaves = b.slaves.set address (some (s.write before).calm) := by
  intro bytes
  obtain ⟨completed, b', hends, hcompleted, hquiescent, hslaves, -⟩ :=
    ends_transact_stalled hm hconfig hb ht hs ha hlimit byte [] [] nofun
  rw [hcompleted.mpr ⟨rfl, rfl⟩] at hends
  refine ⟨b', ?_, hquiescent, hslaves⟩
  rw [Master.write, Master.ends_transactRetrying hm]
  exact Master.ends_persist_done hends _ _

/-- A write whose slave stalls earlier is tried again, and all of it is stored then. -/
theorem ends_write_again {after : List UInt8} (hafter : after ≠ []) :
    let bytes := before ++ byte :: after
    ∃ b', (m.write address bytes).ends respond b = (⟨.ok (), [.write address bytes]⟩, b') ∧
      Quiescent b' ∧
      b'.slaves = b.slaves.set address (some ((s.write before).calm.write bytes)) := by
  intro bytes
  obtain ⟨completed, b₁, hfirst, hcompleted, hquiescent, hslaves, -⟩ :=
    ends_transact_stalled hm hconfig hb ht hs ha hlimit byte after [] nofun
  have hshort : completed ≠ [Message.write address bytes].length :=
    fun h => hafter (hcompleted.mp h).1
  have hagain := Master.ends_persist_again hfirst (Answer.not_final_ok hshort)
    Master.writeRetries 9
  have hget : b₁.slaves.get address = some (s.write before).calm := by
    rw [hslaves, ByteTable.get_set_self]
  have hack : (s.write before).calm.acknowledges := by
    change (s.write before).acknowledges = true
    rw [Slave.acknowledges_write, ha]
  obtain ⟨b', hsecond, hrest, hend⟩ :=
    ends_transact_write hm hconfig (hquiescent.delay (Master.retryMicros * 1000)) ht hget hack
      (Slave.endures_of_none rfl bytes.length)
  refine ⟨b', ?_, hrest, ?_⟩
  · rw [Master.write, Master.ends_transactRetrying hm]
    exact hagain.trans (Master.ends_persist_done hsecond _ _)
  · rw [hend]
    change b₁.slaves.set address _ = _
    rw [hslaves, ByteTable.set_set]

end

/-! ## What is kept -/

namespace Slave

variable {s : Slave}

/-- The bytes that a write leaves with its slave when it succeeds: all of them, unless the slave
stalls at the last one. -/
def kept (s : Slave) (bytes : List UInt8) : List UInt8 :=
  if s.stallAfter = some (bytes.length - 1) then bytes.dropLast else bytes

theorem registers_kept (s : Slave) (bytes : List UInt8) :
    (s.write (s.kept bytes)).registers = (s.write bytes).registers ↔
      (s.stallAfter = some (bytes.length - 1) →
        (s.write bytes.dropLast).registers = (s.write bytes).registers) := by
  unfold kept
  split
  case isTrue h => exact ⟨fun heq _ => heq, fun himp => himp h⟩
  case isFalse h => exact iff_of_true rfl fun hlimit => absurd hlimit h

theorem kept_of_endures {bytes : List UInt8} (h : s.Endures bytes.length) (hne : bytes ≠ []) :
    s.kept bytes = bytes := by
  refine if_neg fun hlimit => ?_
  have hle := h _ hlimit
  have hpos := List.length_pos_iff.mpr hne
  omega

theorem kept_concat {before : List UInt8} (h : s.stallAfter = some before.length)
    (byte : UInt8) : s.kept (before ++ [byte]) = before := by
  have hlength : (before ++ [byte]).length - 1 = before.length := by simp
  unfold kept
  rw [hlength, if_pos h, List.dropLast_concat]

theorem kept_append {before after : List UInt8} (h : s.stallAfter = some before.length)
    (byte : UInt8) (hafter : after ≠ []) :
    s.kept (before ++ byte :: after) = before ++ byte :: after := by
  have hpos := List.length_pos_iff.mpr hafter
  refine if_neg fun hlimit => ?_
  rw [h, Option.some.injEq, List.length_append, List.length_cons] at hlimit
  omega

/-- Either the slave takes all bytes, or it stalls at one of them. -/
theorem endures_or_stalls (s : Slave) (bytes : List UInt8) :
    s.Endures bytes.length ∨ ∃ before byte after, bytes = before ++ byte :: after ∧
      s.stallAfter = some before.length := by
  cases hlimit : s.stallAfter with
  | none => exact .inl (endures_of_none hlimit bytes.length)
  | some limit =>
    by_cases hle : bytes.length ≤ limit
    · left
      intro other hother
      rw [hlimit] at hother
      cases hother
      exact hle
    · have hlt : limit < bytes.length := Nat.lt_of_not_le hle
      right
      refine ⟨bytes.take limit, bytes[limit], bytes.drop (limit + 1), ?_, ?_⟩
      · rw [← List.drop_eq_getElem_cons hlt, List.take_append_drop]
      · rw [List.length_take, Nat.min_eq_left (Nat.le_of_lt hlt)]

end Slave

/-- A write to a slave that acknowledges succeeds, whenever the slave stalls. -/
theorem ends_write_kept {m : Master} {address : UInt8} {s : Slave} (hm : m.installed = true)
    (hconfig : m.bus.config = config) (hb : Quiescent b) (ht : address ≤ 0x7f)
    (hs : b.slaves.get address = some s) (ha : s.acknowledges) {bytes : List UInt8}
    (hne : bytes ≠ []) :
    ∃ b' s', (m.write address bytes).ends respond b =
        (⟨.ok (), [.write address bytes]⟩, b') ∧ Quiescent b' ∧
      b'.slaves = b.slaves.set address (some s') ∧
      s'.registers = (s.write (s.kept bytes)).registers := by
  rcases s.endures_or_stalls bytes with he | ⟨before, byte, after, rfl, hlimit⟩
  · obtain ⟨b', hends, hrest, hslaves⟩ := ends_write_whole hm hconfig hb ht hs ha he
    refine ⟨b', _, hends, hrest, hslaves, ?_⟩
    rw [Slave.kept_of_endures he hne]
  · by_cases hafter : after = []
    · subst hafter
      obtain ⟨b', hends, hrest, hslaves⟩ := ends_write_cut hm hconfig hb ht hs ha hlimit byte
      refine ⟨b', _, hends, hrest, hslaves, ?_⟩
      rw [Slave.kept_concat hlimit]
      rfl
    · obtain ⟨b', hends, hrest, hslaves⟩ :=
        ends_write_again hm hconfig hb ht hs ha hlimit byte hafter
      refine ⟨b', _, hends, hrest, hslaves, ?_⟩
      have hagain := Slave.registers_write_write_take s (before ++ byte :: after) before.length
      rw [List.take_left] at hagain
      rw [Slave.kept_append hlimit byte hafter, ← hagain]
      have hcalm : (s.write before).calm.registers = (s.write before).registers := rfl
      exact Slave.registers_write_congr hcalm _

end Bench

namespace Master
open Program (ends ends_bind_eq)

variable {m : Master} {address : UInt8} {bytes : List UInt8}

/-- Nothing succeeds on a master that is not installed, or with a chain that may not go onto the
bus. -/
theorem ends_retrying_refused {σ : Type} (hw : Hardware σ) (s : σ) {chain : List Message}
    (h : ¬ (m.installed = true ∧ Message.Valid chain)) (retries : Nat) :
    ((m.transactRetrying retries chain).ends hw s).1.result ≠ .ok () := by
  unfold transactRetrying
  by_cases hm : m.installed = true
  · have hinvalid : ¬ Message.Valid chain := fun hvalid => h ⟨hm, hvalid⟩
    have htransact : m.transact chain = pure ⟨.error .invalidChain, chain⟩ := by
      rw [transact, if_pos hm, if_neg hinvalid]
    rw [if_pos hm]
    unfold persist
    rw [htransact, pure_bind]
    intro hok
    cases hok
  · rw [if_neg hm, reportNotInstalled, ends_bind_eq (Program.ends_error hw _ _ s)]
    intro hok
    cases hok

theorem ends_write_refused {σ : Type} (hw : Hardware σ) (s : σ)
    (h : ¬ (m.installed = true ∧ address ≤ 0x7f)) :
    ((m.write address bytes).ends hw s).1.result ≠ .ok () := by
  refine ends_retrying_refused hw s ?_ writeRetries
  rintro ⟨hm, hvalid⟩
  exact h ⟨hm, hvalid.2 _ (List.mem_singleton_self _)⟩

/-- A write on a quiescent bench to a slave that acknowledges succeeds exactly if the master is
installed and the address is in range. The slave then has all bytes, unless it stalled at the last
one: that byte is lost, although the write succeeds, and it is missed unless its register held it
already. -/
theorem write_keeps (hconfig : m.bus.config = Bench.config) {b : Bench} (hb : b.Quiescent)
    {s : Bench.Slave} (hs : b.slaves.get address = some s) (ha : s.acknowledges)
    (hne : bytes ≠ []) :
    let o := (m.write address bytes).run Bench.respond b
    (o.value.result = .ok () ↔ m.installed = true ∧ address ≤ 0x7f) ∧
      (o.value.result = .ok () → o.state.Quiescent ∧ ∃ s' : Bench.Slave,
        o.state.slaves = b.slaves.set address (some s') ∧
        s'.registers = (s.write (s.kept bytes)).registers ∧
        (s'.registers = (s.write bytes).registers ↔
          (s.stallAfter = some (bytes.length - 1) →
            (s.write bytes.dropLast).registers = (s.write bytes).registers))) := by
  intro o
  by_cases h : m.installed = true ∧ address ≤ 0x7f
  · obtain ⟨b', s', hends, hquiescent, hslaves, hregisters⟩ :=
      Bench.ends_write_kept h.1 hconfig hb h.2 hs ha hne
    obtain ⟨hvalue, hstate⟩ : o.value = _ ∧ o.state = _ := Program.run_of_ends hends
    have hok : o.value.result = .ok () := by rw [hvalue]
    refine ⟨iff_of_true hok h, fun _ => ?_⟩
    rw [hstate]
    refine ⟨hquiescent, s', hslaves, hregisters, ?_⟩
    rw [hregisters]
    exact s.registers_kept bytes
  · have hrefused : o.value.result ≠ .ok () := ends_write_refused Bench.respond b h
    exact ⟨iff_of_false hrefused h, fun hok => absurd hok hrefused⟩

/-- A bench with a slave that stalls after one data byte; its register 16 holds 5. -/
def stallingBench : Bench := ({} : Bench).attach 0x48 (.stallOnce [(16, 5)] 1)

theorem quiescent_stallingBench : stallingBench.Quiescent :=
  ⟨Bench.coherent_empty.attach _ _, rfl, rfl, rfl, rfl, rfl, rfl⟩

theorem get_stallingBench :
    stallingBench.slaves.get 0x48 = some (.ofDevice (.stallOnce [(16, 5)] 1)) :=
  ByteTable.get_set_self _ _ _

/-- The slave stalls within the write, which is made a second time. -/
theorem write_keeps_on_stallingBench :
    stallingBench.Quiescent ∧
      let o := (benchMaster.write 0x48 [16, 7, 8]).run Bench.respond stallingBench
      o.value.result = .ok () ∧ o.state.register 0x48 16 = 7 ∧
        o.state.register 0x48 17 = 8 := by
  obtain ⟨hsucceeds, hkeeps⟩ :=
    write_keeps (m := benchMaster) rfl quiescent_stallingBench get_stallingBench rfl
      (List.cons_ne_nil 16 [7, 8])
  have hok := hsucceeds.mpr ⟨rfl, by decide⟩
  obtain ⟨-, s', hslaves, -, hall⟩ := hkeeps hok
  have hregisters : s'.registers =
      (((ByteTable.fill 0).setAll [(16, 5)]).set 16 7).set (16 + 1) 8 :=
    hall.mpr (by simp [Bench.Slave.ofDevice])
  have hget := ByteTable.get_set_self stallingBench.slaves 0x48 (some s')
  rw [← hslaves] at hget
  refine ⟨quiescent_stallingBench, hok, ?_, ?_⟩
  · rw [Bench.register_of_get hget, hregisters, ByteTable.get_set_of_ne _ _ (by decide),
      ByteTable.get_set_self]
  · rw [Bench.register_of_get hget, hregisters, show (16 + 1 : UInt8) = 17 from rfl,
      ByteTable.get_set_self]

/-- A write of one register that succeeds on that bench, and the register keeps what it held. -/
theorem write_loses_last_byte :
    let o := (benchMaster.write 0x48 [16, 7]).run Bench.respond stallingBench
    o.value.result = .ok () ∧ o.state.register 0x48 16 = 5 := by
  have hlimit : (Bench.Slave.ofDevice (.stallOnce [(16, 5)] 1)).stallAfter =
      some [(16 : UInt8)].length := rfl
  obtain ⟨b', hends, -, hslaves⟩ := Bench.ends_write_cut (m := benchMaster) rfl rfl
    quiescent_stallingBench (by decide) get_stallingBench rfl hlimit 7
  rw [List.singleton_append] at hends
  obtain ⟨hvalue, hstate⟩ := Program.run_of_ends hends
  have hget : b'.slaves.get 0x48 =
      some ((Bench.Slave.ofDevice (.stallOnce [(16, 5)] 1)).write [16]).calm := by
    rw [hslaves, ByteTable.get_set_self]
  refine ⟨congrArg Answer.result hvalue, ?_⟩
  rw [hstate, Bench.register_of_get hget]
  change ((ByteTable.fill (0 : UInt8)).set 16 5).get 16 = 5
  rw [ByteTable.get_set_self]

end Master
end TwoWire
