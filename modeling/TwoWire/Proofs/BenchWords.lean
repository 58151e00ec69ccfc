import TwoWire.Proofs.Itinerary
import TwoWire.Proofs.RegisterFile
import TwoWire.Proofs.WordBits
/-!
# Words at the bench

What the slaves make of the words of a frame. A bench that serves a session takes a word as it was
meant; the words of a write reach the addressed slave as one write; and the words of a chain amount
to its messages one after another. None of this depends on edges or on the time that was spent.
-/
namespace TwoWire.Bench

/-! ## Edges and time -/

/-- The same bench with another edge and other time spent. -/
def retimed (b : Bench) (edge : Latch) (delayed : Nat) : Bench :=
  { b with edge := edge, tally := { b.tally with delayed := delayed } }

/-- The second bench differs from the first one in its edge and its time only. -/
def Alike (b b' : Bench) : Prop := ∃ edge delayed, b' = b.retimed edge delayed

namespace Alike

theorem refl (b : Bench) : Alike b b := ⟨b.edge, b.tally.delayed, rfl⟩

theorem trans {b b' b'' : Bench} (h : Alike b b') (h' : Alike b' b'') : Alike b b'' := by
  obtain ⟨edge, delayed, rfl⟩ := h
  obtain ⟨edge', delayed', rfl⟩ := h'
  exact ⟨edge', delayed', rfl⟩

section
variable {b b' : Bench}

theorem mode (h : Alike b b') : b'.mode = b.mode := by
  obtain ⟨edge, delayed, rfl⟩ := h
  rfl

theorem received (h : Alike b b') : b'.received = b.received := by
  obtain ⟨edge, delayed, rfl⟩ := h
  rfl

theorem readEnd (h : Alike b b') : b'.readEnd = b.readEnd := by
  obtain ⟨edge, delayed, rfl⟩ := h
  rfl

theorem carried (h : Alike b b') : b'.carried = b.carried := by
  obtain ⟨edge, delayed, rfl⟩ := h
  rfl

theorem stalled (h : Alike b b') : b'.stalled = b.stalled := by
  obtain ⟨edge, delayed, rfl⟩ := h
  rfl

theorem slaves (h : Alike b b') : b'.slaves = b.slaves := by
  obtain ⟨edge, delayed, rfl⟩ := h
  rfl

theorem starts (h : Alike b b') : b'.tally.starts = b.tally.starts := by
  obtain ⟨edge, delayed, rfl⟩ := h
  rfl

theorem pulses (h : Alike b b') : b'.tally.pulses = b.tally.pulses := by
  obtain ⟨edge, delayed, rfl⟩ := h
  rfl

end

theorem fetch {b b' : Bench} (h : Alike b b') : Alike b.fetch b'.fetch := by
  obtain ⟨edge, delayed, rfl⟩ := h
  have hdue : (b.retimed edge delayed).isStallDue = b.isStallDue := rfl
  unfold Bench.fetch
  rw [hdue]
  cases b.isStallDue with
  | true => exact ⟨edge, delayed, rfl⟩
  | false => exact ⟨⟨true⟩, delayed, rfl⟩

theorem address {b b' : Bench} (h : Alike b b') (target : UInt8) (reading last : Bool) :
    Alike (b.address target reading last) (b'.address target reading last) := by
  obtain ⟨edge, delayed, rfl⟩ := h
  have hack : (b.retimed edge delayed).begin.acknowledged target = b.begin.acknowledged target :=
    rfl
  unfold Bench.address
  simp only [hack]
  cases b.begin.acknowledged target with
  | false => exact ⟨⟨true⟩, delayed, rfl⟩
  | true =>
    cases last with
    | true => exact ⟨⟨true⟩, delayed, rfl⟩
    | false =>
      cases reading with
      | true => exact fetch ⟨⟨true⟩, delayed, rfl⟩
      | false => exact ⟨⟨true⟩, delayed, rfl⟩

theorem data {b b' : Bench} (h : Alike b b') (byte : UInt8) (last : Bool) :
    Alike (b.data byte last) (b'.data byte last) := by
  obtain ⟨edge, delayed, rfl⟩ := h
  have hdue : (b.retimed edge delayed).isStallDue = b.isStallDue := rfl
  have hmode : (b.retimed edge delayed).mode = b.mode := rfl
  have hend : (b.retimed edge delayed).readEnd = b.readEnd := rfl
  unfold Bench.data
  rw [hdue, hmode, hend]
  cases b.mode with
  | idle => exact ⟨edge, delayed, rfl⟩
  | write =>
    cases b.isStallDue with
    | true => exact ⟨edge, delayed, rfl⟩
    | false => cases last <;> exact ⟨⟨true⟩, delayed, rfl⟩
  | read =>
    cases last with
    | false => exact ⟨edge, delayed, rfl⟩
    | true =>
      cases b.readEnd with
      | unset => exact ⟨edge, delayed, rfl⟩
      | announced => exact ⟨⟨true⟩, delayed, rfl⟩
      | reached => exact ⟨⟨true⟩, delayed, rfl⟩

theorem pushWord {b b' : Bench} (h : Alike b b') (word : UInt32) :
    Alike (b.pushWord word) (b'.pushWord word) := by
  unfold Bench.pushWord
  simp only [h.stalled]
  split
  · exact h
  · split
    · exact h.address _ _ _
    · exact h.data _ _

end Alike

/-! ## Words -/

variable {b : Bench}

/-- The bench serves a session: clock and interrupt line are held, the controller has no error to
report, and no slave stalls or holds SDA. -/
structure Serving (b : Bench) : Prop where
  clockOn : b.clockOn = true
  unmasked : b.unmasked = true
  stalled : b.stalled = false
  errors : b.errors = 0
  heldPulses : b.heldPulses = 0
  busActive : b.busActive = decide (b.mode ≠ .idle)
  master : b.mode ≠ .idle → b.master = true

theorem Serving.alike {b b' : Bench} (h : Serving b) (ha : Alike b b') : Serving b' := by
  obtain ⟨edge, delayed, rfl⟩ := ha
  exact ⟨h.clockOn, h.unmasked, h.stalled, h.errors, h.heldPulses, h.busActive, h.master⟩

/-- A write is going on and asks for words. -/
structure Writing (b : Bench) : Prop extends Serving b where
  mode : b.mode = .write
  received : b.received = none

theorem Writing.alike {b b' : Bench} (h : Writing b) (ha : Alike b b') : Writing b' := by
  have hs := h.toServing.alike ha
  obtain ⟨edge, delayed, rfl⟩ := ha
  exact ⟨hs, h.mode, h.received⟩

theorem pushWord_address {target : UInt8} (hs : b.stalled = false)
    (ht : target ≤ 0x7f) (reading last : Bool) :
    b.pushWord (FifoWord.address target reading last).bits = b.address target reading last := by
  have haddress := FifoWord.address_bits target reading last
  have hlast := FifoWord.bits_and_lastBit (.address target reading last)
  unfold pushWord
  rw [hs, haddress, FifoWord.target_bits ht, FifoWord.reading_bits, hlast]
  cases last <;> rfl

theorem pushWord_data (hs : b.stalled = false) (byte : UInt8) (last : Bool) :
    b.pushWord (FifoWord.data byte last).bits = b.data byte last := by
  obtain ⟨haddress, hbyte⟩ := FifoWord.data_bits byte last
  have hlast := FifoWord.bits_and_lastBit (.data byte last)
  unfold pushWord
  rw [hs, haddress, hbyte, hlast]
  cases last <;> rfl

theorem pushWord_stop (hs : b.stalled = false) :
    b.pushWord FifoWord.stop.bits = b.data 0 true := by
  unfold pushWord
  rw [hs]
  rfl

/-- A bench that does not stall has signalled its last word. -/
def Rung (b : Bench) : Prop := b.stalled = false → b.edge.raised = true

theorem rung_address (b : Bench) (target : UInt8) (reading last : Bool) :
    Rung (b.address target reading last) := by
  intro _
  unfold address
  dsimp only
  split
  case isFalse => rfl
  split
  case isTrue => rfl
  split
  case isFalse => rfl
  unfold fetch
  split <;> rfl

theorem rung_data (hm : b.mode = .write) (byte : UInt8) (last : Bool) :
    Rung (b.data byte last) := by
  intro hs
  unfold data at hs ⊢
  rw [hm] at hs ⊢
  cases hd : b.isStallDue with
  | true => simp only [hd, if_true, stall, Bool.true_eq_false] at hs
  | false => cases last <;> rfl

theorem rung_pushWord (h : Writing b) (word : UInt32) : Rung (b.pushWord word) := by
  unfold pushWord
  simp only [h.stalled, Bool.false_eq_true, if_false]
  split
  · exact rung_address b _ _ _
  · exact rung_data h.mode _ _

/-- The bench after words in order. -/
def pushAll : Bench → List FifoWord → Bench
  | b, [] => b
  | b, word :: rest => pushAll (b.pushWord word.bits) rest

theorem pushAll_append (b : Bench) (words more : List FifoWord) :
    pushAll b (words ++ more) = pushAll (pushAll b words) more := by
  induction words generalizing b with
  | nil => rfl
  | cons word rest ih => exact ih _

/-- The bench asks for each of the words before it comes. -/
def Follows : Bench → List FifoWord → Prop
  | _, [] => True
  | b, word :: rest => Writing b ∧ Follows (b.pushWord word.bits) rest

theorem follows_append {words more : List FifoWord} :
    Follows b (words ++ more) ↔ Follows b words ∧ Follows (pushAll b words) more := by
  induction words generalizing b with
  | nil => simp [Follows, pushAll]
  | cons word rest ih => simp only [List.cons_append, Follows, pushAll, ih, and_assoc]

/-! ## One write -/

/-- The slave takes `n` data bytes before a pending stall sets in. -/
def Slave.Endures (s : Slave) (n : Nat) : Prop := ∀ limit, s.stallAfter = some limit → n ≤ limit

theorem Slave.endures_of_none {s : Slave} (h : s.stallAfter = none) (n : Nat) : s.Endures n := by
  intro limit hlimit
  rw [h] at hlimit
  cases hlimit

theorem Slave.Endures.mono {s : Slave} {n k : Nat} (h : s.Endures n) (hk : k ≤ n) : s.Endures k :=
  fun limit hlimit => Nat.le_trans hk (h limit hlimit)

theorem isStallDue_eq_false {s : Slave} (hs : b.slaves.get b.target = some s)
    (he : s.Endures (b.carried + 1)) : b.isStallDue = false := by
  unfold isStallDue slave?
  rw [hs]
  change s.stallAfter.any _ = false
  cases hlimit : s.stallAfter with
  | none => rfl
  | some limit =>
    have := he limit hlimit
    simp only [Option.any_some, decide_eq_false_iff_not]
    omega

theorem pushWord_of_writing {s : Slave} (h : Writing b)
    (hs : b.slaves.get b.target = some s) (he : s.Endures (b.carried + 1)) (byte : UInt8)
    (last : Bool) :
    b.pushWord (FifoWord.data byte last).bits =
      signal (if last then (b.deliver byte).release else b.deliver byte) := by
  rw [pushWord_data h.stalled]
  unfold data
  rw [h.mode, isStallDue_eq_false hs he]
  rfl

/-- What bytes of a write do to a slave, before or after the first one. -/
def Slave.take (s : Slave) (aimed : Bool) (bytes : List UInt8) : Slave :=
  if aimed then s.storeAll bytes else s.write bytes

theorem Slave.take_take (s : Slave) (aimed : Bool) (byte : UInt8) (rest : List UInt8) :
    (s.take aimed [byte]).take true rest = s.take aimed (byte :: rest) := by
  unfold take
  cases aimed <;> rfl

theorem Slave.stallAfter_take (s : Slave) (aimed : Bool) (bytes : List UInt8) :
    (s.take aimed bytes).stallAfter = s.stallAfter := by
  unfold take
  cases aimed
  · exact stallAfter_write s bytes
  · exact stallAfter_storeAll s bytes

theorem writing_deliver (h : Writing b) (byte : UInt8) :
    Writing (signal (b.deliver byte)) :=
  ⟨⟨h.clockOn, h.unmasked, h.stalled, h.errors, h.heldPulses, h.busActive, h.master⟩, h.mode,
    h.received⟩

theorem slaves_deliver {s : Slave} (hs : b.slaves.get b.target = some s)
    (byte : UInt8) :
    (b.deliver byte).slaves = b.slaves.set b.target (some (s.take b.aimed [byte])) := by
  change b.slaves.set b.target ((b.slaves.get b.target).map _) = _
  rw [hs]
  cases b.aimed <;> rfl

/-- The bench `b'` is what `b` comes to with data bytes of a write. -/
structure Took (b : Bench) (last : Bool) (bytes : List UInt8) (b' : Bench) : Prop where
  serving : Serving b'
  received : b'.received = none
  mode : b'.mode = if last && !bytes.isEmpty then .idle else .write
  target : b'.target = b.target
  carried : b'.carried = b.carried + bytes.length
  tally : b'.tally = b.tally
  slaves : ∀ s, b.slaves.get b.target = some s →
    b'.slaves = b.slaves.set b.target (some (s.take b.aimed bytes))

theorem Took.writing {b b' : Bench} {bytes : List UInt8} (h : Took b false bytes b') :
    Writing b' :=
  ⟨h.serving, h.mode, h.received⟩

theorem took_nil (h : Writing b) (last : Bool) : Took b last [] b where
  serving := h.toServing
  received := h.received
  mode := by rw [h.mode, List.isEmpty_nil, Bool.not_true, Bool.and_false]; rfl
  target := rfl
  carried := rfl
  tally := rfl
  slaves s hs := by
    have hnil : s.take b.aimed [] = s := by
      unfold Slave.take
      split <;> rfl
    rw [hnil, ← hs, ByteTable.set_get]

/-- The byte with the stop request ends the write. -/
theorem took_last (h : Writing b) (byte : UInt8) :
    Took b true [byte] (signal (b.deliver byte).release) where
  serving := ⟨h.clockOn, h.unmasked, rfl, h.errors, h.heldPulses, rfl, fun hm => absurd rfl hm⟩
  received := h.received
  mode := rfl
  target := rfl
  carried := rfl
  tally := rfl
  slaves _ hs := slaves_deliver hs byte

/-- The bytes after the first one go on from where that one led. -/
theorem took_cons {b b' : Bench} {byte : UInt8} {rest : List UInt8} {last : Bool}
    (hmore : (last && rest.isEmpty) = false)
    (h : Took (signal (b.deliver byte)) last rest b') : Took b last (byte :: rest) b' where
  serving := h.serving
  received := h.received
  mode := by
    rw [h.mode]
    cases rest with
    | nil =>
      rw [List.isEmpty_nil, Bool.and_true] at hmore
      rw [hmore]
      rfl
    | cons _ _ => rfl
  target := h.target
  carried := by
    rw [h.carried, List.length_cons]
    change b.carried + 1 + rest.length = _
    omega
  tally := h.tally
  slaves s' hs' := by
    have hdeliver := slaves_deliver hs' byte
    have hget : (signal (b.deliver byte)).slaves.get b.target =
        some (s'.take b.aimed [byte]) := by
      change (b.deliver byte).slaves.get b.target = _
      rw [hdeliver, ByteTable.get_set_self]
    have haimed : (signal (b.deliver byte)).aimed = true := by
      change (b.aimed || (b.slaves.get b.target).isSome) = true
      rw [hs', Option.isSome_some, Bool.or_true]
    rw [h.slaves _ hget, haimed, Slave.take_take]
    change (b.deliver byte).slaves.set b.target _ = _
    rw [hdeliver, ByteTable.set_set]

/-- The bytes of a write reach its slave one after another. -/
theorem took_dataWords {s : Slave} (h : Writing b)
    (hs : b.slaves.get b.target = some s) (last : Bool) (bytes : List UInt8)
    (he : s.Endures (b.carried + bytes.length)) :
    Follows b (Message.dataWords last bytes) ∧
      Took b last bytes (pushAll b (Message.dataWords last bytes)) := by
  induction bytes generalizing b s with
  | nil => exact ⟨trivial, took_nil h last⟩
  | cons byte rest ih =>
    have hone : s.Endures (b.carried + 1) := by
      intro limit hlimit
      have := he limit hlimit
      rw [List.length_cons] at this
      omega
    have hpush := pushWord_of_writing h hs hone byte (last && rest.isEmpty)
    rw [Message.dataWords, pushAll, Follows, hpush]
    cases hend : last && rest.isEmpty with
    | true =>
      obtain ⟨rfl, hrest⟩ := Bool.and_eq_true_iff.mp hend
      obtain rfl := List.isEmpty_iff.mp hrest
      exact ⟨⟨h, trivial⟩, took_last h byte⟩
    | false =>
      have hget : (signal (b.deliver byte)).slaves.get b.target =
          some (s.take b.aimed [byte]) := by
        change (b.deliver byte).slaves.get b.target = _
        rw [slaves_deliver hs, ByteTable.get_set_self]
      have hrest : (s.take b.aimed [byte]).Endures (b.carried + 1 + rest.length) := by
        intro limit hlimit
        rw [Slave.stallAfter_take] at hlimit
        have := he limit hlimit
        rw [List.length_cons] at this
        omega
      obtain ⟨hfollows, htook⟩ := ih (writing_deliver h byte) hget hrest
      exact ⟨⟨h, hfollows⟩, took_cons hend htook⟩

/-! ## Messages -/

/-- The bench takes an address: it is idle, or a write is going on. -/
structure Open (b : Bench) : Prop extends Serving b where
  mode : b.mode ≠ .read
  received : b.received = none

theorem Writing.isOpen (h : Writing b) : Open b where
  toServing := h.toServing
  mode := by rw [h.mode]; decide
  received := h.received

/-- Start conditions once the next address has gone out; a repeated start is not counted. -/
def begun (b : Bench) : Nat := if b.mode = .idle then b.tally.starts + 1 else b.tally.starts

theorem acknowledged_of_get {target : UInt8} {s : Slave}
    (hs : b.slaves.get target = some s) (ha : s.acknowledges) : b.acknowledged target = true := by
  unfold acknowledged slave?
  rw [hs]
  exact ha

theorem address_of_acknowledged {target : UInt8} (h : b.acknowledged target = true)
    (reading last : Bool) :
    b.address target reading last =
      if last then (b.begin.select target).release
      else if reading then fetch { b.begin.select target with mode := .read }
      else { b.begin.select target with mode := .write } := by
  have hbegin : b.begin.acknowledged target = true := h
  unfold address
  simp only [hbegin, if_true]

/-- The address word of a message that is acknowledged. -/
theorem pushWord_addressWord {m : Message} (hs : b.stalled = false)
    (ht : m.address ≤ 0x7f) (h : b.acknowledged m.address = true) (last : Bool) :
    b.pushWord (m.addressWord last).bits =
      if last && decide (m.length = 0) then (b.begin.select m.address).release
      else if m.isRead then fetch { b.begin.select m.address with mode := .read }
      else { b.begin.select m.address with mode := .write } := by
  rw [Message.addressWord, pushWord_address hs ht, address_of_acknowledged h]

theorem rung_addressWord {m : Message} (hs : b.stalled = false)
    (ht : m.address ≤ 0x7f) (last : Bool) : Rung (b.pushWord (m.addressWord last).bits) := by
  rw [Message.addressWord, pushWord_address hs ht]
  exact rung_address b _ _ _

theorem writing_address (h : Open b) (target : UInt8) :
    Writing { b.begin.select target with mode := .write } :=
  ⟨⟨h.clockOn, h.unmasked, h.stalled, h.errors, h.heldPulses, rfl, fun _ => rfl⟩, rfl, rfl⟩

/-- The address of a write that is not over with it makes the slave the target. -/
structure Addressed (b : Bench) (address : UInt8) (b' : Bench) : Prop extends Writing b' where
  target : b'.target = address
  aimed : b'.aimed = false
  carried : b'.carried = (b.select address).carried
  slaves : b'.slaves = b.slaves
  starts : b'.tally.starts = b.begun
  pulses : b'.tally.pulses = b.tally.pulses

theorem addressed_addressWord {m : Message} (h : Open b) (hm : m.isRead = false)
    (ht : m.address ≤ 0x7f) (ha : b.acknowledged m.address = true) {last : Bool}
    (hmore : (last && decide (m.length = 0)) = false) :
    Addressed b m.address (b.pushWord (m.addressWord last).bits) := by
  rw [pushWord_addressWord h.stalled ht ha, hmore, hm, if_neg Bool.false_ne_true,
    if_neg Bool.false_ne_true]
  exact ⟨writing_address h m.address, rfl, rfl, rfl, rfl, rfl, rfl⟩

/-- The bench `b'` is what `b` comes to with the words of a write message. -/
structure Wrote (b : Bench) (m : Message) (last : Bool) (b' : Bench) : Prop where
  serving : Serving b'
  received : b'.received = none
  mode : b'.mode = if last then .idle else .write
  target : b'.target = m.address
  carried : b'.carried = (b.select m.address).carried + m.length
  slaves : b'.slaves = Slaves.afterMessage b.slaves m
  starts : b'.tally.starts = b.begun
  pulses : b'.tally.pulses = b.tally.pulses

theorem Wrote.writing {b' : Bench} {m : Message} (h : Wrote b m false b') : Writing b' :=
  ⟨h.serving, h.mode, h.received⟩

theorem Slaves.afterMessage_write {slaves : Slaves} {target : UInt8} {s : Slave}
    (hs : slaves.get target = some s) (bytes : List UInt8) :
    slaves.afterMessage (.write target bytes) = slaves.set target (some (s.write bytes)) := by
  change slaves.set target ((slaves.get target).map _) = _
  rw [hs]
  rfl

/-- A last message without bytes is over with its address. -/
theorem wrote_empty {target : UInt8} {s : Slave} (h : Open b) (ht : target ≤ 0x7f)
    (hs : b.slaves.get target = some s) (ha : s.acknowledges) :
    let m := Message.write target []
    Wrote b m true (b.pushWord (m.addressWord true).bits) := by
  intro m
  have hpush : b.pushWord (m.addressWord true).bits = (b.begin.select target).release :=
    pushWord_addressWord (m := m) h.stalled ht (acknowledged_of_get hs ha) true
  rw [hpush]
  constructor
  case serving =>
    exact ⟨h.clockOn, h.unmasked, rfl, h.errors, h.heldPulses, rfl, fun hm => absurd rfl hm⟩
  case slaves =>
    rw [Slaves.afterMessage_write hs]
    change b.slaves = b.slaves.set target (some s)
    rw [← hs, ByteTable.set_get]
  all_goals rfl

/-- The words of a write message amount to the write. -/
theorem wrote_words {target : UInt8} {bytes : List UInt8} {s : Slave} (h : Open b)
    (ht : target ≤ 0x7f) (hs : b.slaves.get target = some s) (ha : s.acknowledges) (last : Bool)
    (he : s.Endures ((b.select target).carried + bytes.length)) :
    let m := Message.write target bytes
    Follows (b.pushWord (m.addressWord last).bits) (Message.dataWords last bytes) ∧
      Wrote b m last (pushAll b (m.words last)) := by
  intro m
  have hwords : pushAll b (m.words last) =
      pushAll (b.pushWord (m.addressWord last).bits) (Message.dataWords last bytes) := rfl
  rw [hwords]
  cases hmore : last && decide (m.length = 0) with
  | true =>
    obtain ⟨rfl, hlength⟩ := Bool.and_eq_true_iff.mp hmore
    obtain rfl := List.length_eq_zero_iff.mp (of_decide_eq_true hlength)
    exact ⟨trivial, wrote_empty h ht hs ha⟩
  | false =>
    have haddressed := addressed_addressWord (m := m) h rfl ht (acknowledged_of_get hs ha) hmore
    let b₀ := b.pushWord (m.addressWord last).bits
    have hget : b₀.slaves.get b₀.target = some s := by
      rw [haddressed.slaves, haddressed.target]
      exact hs
    obtain ⟨hfollows, htook⟩ := took_dataWords haddressed.toWriting hget last bytes (by
      rw [haddressed.carried]
      exact he)
    refine ⟨hfollows, htook.serving, htook.received, ?_, ?_, ?_, ?_, ?_, ?_⟩
    · rw [htook.mode]
      cases bytes with
      | nil =>
        rw [show decide (m.length = 0) = true from rfl, Bool.and_true] at hmore
        rw [hmore]
        rfl
      | cons _ _ => cases last <;> rfl
    · rw [htook.target, haddressed.target]
    · rw [htook.carried, haddressed.carried]
      rfl
    · rw [htook.slaves s hget, haddressed.slaves, haddressed.target, haddressed.aimed,
        Slaves.afterMessage_write hs]
      rfl
    · rw [htook.tally, haddressed.starts]
    · rw [htook.tally, haddressed.pulses]

/-- The slave at the address of a message is there, acknowledges and has no stall pending. -/
def Slaves.Serve (slaves : Slaves) (m : Message) : Prop :=
  m.address ≤ 0x7f ∧
    ∃ s, slaves.get m.address = some s ∧ s.acknowledges ∧ s.stallAfter = none

/-- Messages change neither who acknowledges nor who stalls. -/
theorem Slaves.get_afterMessage (slaves : Slaves) (m : Message) (address : UInt8) :
    ∃ f : Slave → Slave, (slaves.afterMessage m).get address = (slaves.get address).map f ∧
      ∀ s, (f s).acknowledges = s.acknowledges ∧ (f s).stallAfter = s.stallAfter := by
  obtain ⟨target, payload⟩ := m
  by_cases heq : target = address
  · subst heq
    cases payload with
    | write bytes =>
      refine ⟨(·.write bytes), ByteTable.get_set_self _ _ _, fun s => ?_⟩
      simp
    | read buffer =>
      exact ⟨(·.skip (fetched buffer.length)), ByteTable.get_set_self _ _ _, fun s => ⟨rfl, rfl⟩⟩
  · refine ⟨id, ?_, fun s => ⟨rfl, rfl⟩⟩
    rw [Option.map_id, id]
    cases payload <;> exact ByteTable.get_set_of_ne _ _ heq

theorem Slaves.get_replay (slaves : Slaves) (chain : List Message) (address : UInt8) :
    ∃ f : Slave → Slave, (slaves.replay chain).get address = (slaves.get address).map f ∧
      ∀ s, (f s).acknowledges = s.acknowledges ∧ (f s).stallAfter = s.stallAfter := by
  induction chain generalizing slaves with
  | nil => exact ⟨id, by simp [replay], fun s => ⟨rfl, rfl⟩⟩
  | cons m rest ih =>
    obtain ⟨f, hf, hkept⟩ := slaves.get_afterMessage m address
    obtain ⟨g, hg, hkept'⟩ := ih (slaves.afterMessage m)
    refine ⟨g ∘ f, ?_, fun s => ?_⟩
    · rw [replay, hg, hf, Option.map_map]
    · simp [hkept, hkept']

theorem Slaves.serve_replay {slaves : Slaves} {m : Message} (h : slaves.Serve m)
    (chain : List Message) : (slaves.replay chain).Serve m := by
  obtain ⟨haddress, s, hs, hack, hcalm⟩ := h
  obtain ⟨f, hf, hkept⟩ := slaves.get_replay chain m.address
  refine ⟨haddress, f s, by rw [hf, hs, Option.map_some], ?_, ?_⟩
  · rw [(hkept s).1, hack]
  · rw [(hkept s).2, hcalm]

/-- The words of writes leave the bench as the writes leave the slaves, and ready for what follows
them. -/
theorem follows_opening (h : Open b) (writes : List Message)
    (hw : ∀ w ∈ writes, w.isRead = false) (hs : ∀ w ∈ writes, Slaves.Serve b.slaves w) :
    let b' := pushAll b (Message.opening writes)
    Open b' ∧ b'.slaves = Slaves.replay b.slaves writes ∧ b'.begun = b.begun ∧
      b'.tally.pulses = b.tally.pulses ∧
      ∀ {word more}, Follows (b'.pushWord word.bits) more →
        ∃ first rest, Message.opening writes ++ word :: more = first :: rest ∧
          Follows (b.pushWord first.bits) rest := by
  induction writes generalizing b with
  | nil => exact ⟨h, rfl, rfl, rfl, fun hmore => ⟨_, _, rfl, hmore⟩⟩
  | cons write rest ih =>
    intro b'
    have hread : write.isRead = false := hw write List.mem_cons_self
    obtain ⟨haddress, s, hget, hack, hcalm⟩ := hs write List.mem_cons_self
    obtain ⟨target, payload⟩ := write
    cases payload with
    | read buffer => cases hread
    | write bytes =>
      obtain ⟨hfollows, hwrote⟩ :=
        wrote_words h haddress hget hack false (Slave.endures_of_none hcalm _)
      obtain ⟨hopen, hslaves, hbegun, hpulses, hlast⟩ := ih hwrote.writing.isOpen
        (fun w hmem => hw w (List.mem_cons_of_mem _ hmem)) fun w hmem => by
          rw [hwrote.slaves]
          exact Slaves.serve_replay (hs w (List.mem_cons_of_mem _ hmem)) [.write target bytes]
      have hwords : b' = pushAll (pushAll b ((Message.write target bytes).words false))
          (Message.opening rest) := pushAll_append _ _ _
      rw [hwords]
      refine ⟨hopen, ?_, ?_, ?_, fun hmore => ?_⟩
      · rw [hslaves, hwrote.slaves]
        rfl
      · rw [hbegun, begun, hwrote.mode, hwrote.starts]
        rfl
      · rw [hpulses, hwrote.pulses]
      · obtain ⟨first, others, hsplit, hnext⟩ := hlast hmore
        refine ⟨(Message.write target bytes).addressWord false,
          Message.dataWords false bytes ++ first :: others, ?_, ?_⟩
        · rw [← hsplit]
          exact List.append_assoc _ _ _
        · exact follows_append.mpr ⟨hfollows, hwrote.writing, hnext⟩

end TwoWire.Bench
