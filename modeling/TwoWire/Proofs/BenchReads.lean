import TwoWire.Proofs.BenchWords
/-!
# Reads at the bench

A read fetches one byte ahead of what was taken from it. A stop request lets one more byte come in;
taking that one ends the read. Either way the bytes come from consecutive registers of the slave as
it was before the read, as long as no stall comes up.
-/
namespace TwoWire.Bench

/-- A read is going on from the slave that was `s` when it began. Of its bytes `taken` have
been taken, the next one is there, and `more` others come in before a pending stall sets in. -/
structure Reading (b : Bench) (slaves : Slaves) (source : UInt8) (s : Slave) (taken more : Nat) :
    Prop extends Serving b where
  mode : b.mode = .read
  target : b.target = source
  received : b.received = some (s.peek taken)
  slaves : b.slaves = slaves.set source (some (s.skip (taken + 1)))
  endures : s.Endures (b.carried + more)

theorem Reading.alike {b b' : Bench} {slaves : Slaves} {source : UInt8} {s : Slave}
    {taken more : Nat} (h : Reading b slaves source s taken more) (ha : Alike b b') :
    Reading b' slaves source s taken more := by
  have hs := h.toServing.alike ha
  obtain ⟨edge, delayed, rfl⟩ := ha
  exact ⟨hs, h.mode, h.target, h.received, h.slaves, h.endures⟩

/-- A read has ended. -/
structure Ended (b : Bench) (b' : Bench) : Prop where
  serving : Serving b'
  mode : b'.mode = .idle
  received : b'.received = none
  slaves : b'.slaves = b.slaves
  tally : b'.tally = b.tally

variable {b : Bench} {slaves : Slaves} {source : UInt8} {s : Slave} {taken more : Nat}

theorem fetch_of_endures (hs : b.slaves.get b.target = some s) (he : s.Endures (b.carried + 1)) :
    b.fetch = signal { b.onTarget Slave.advance with
      received := some s.current
      carried := b.carried + 1 } := by
  unfold fetch
  rw [isStallDue_eq_false hs he]
  unfold slave?
  rw [hs]
  rfl

/-- The address word of a read fetches its first byte. -/
theorem reading_addressWord {m : Message} (h : Open b) (hm : m.isRead) (hlen : m.length ≠ 0)
    (ht : m.address ≤ 0x7f) (hs : b.slaves.get m.address = some s) (ha : s.acknowledges)
    (he : s.Endures ((b.select m.address).carried + 1 + more)) (last : Bool) :
    let b' := b.pushWord (m.addressWord last).bits
    Reading b' b.slaves m.address s 0 more ∧ b'.readEnd = .unset ∧ b'.tally.starts = b.begun ∧
      b'.tally.pulses = b.tally.pulses ∧ b'.carried = (b.select m.address).carried + 1 := by
  intro b'
  let reading := { b.begin.select m.address with mode := .read }
  have hslave : reading.slaves.get reading.target = some s := hs
  have hpush : b' = signal { reading.onTarget Slave.advance with
      received := some s.current
      carried := reading.carried + 1 } := by
    change b.pushWord (m.addressWord last).bits = _
    rw [pushWord_addressWord h.stalled ht (acknowledged_of_get hs ha), hm, decide_eq_false hlen,
      Bool.and_false, ← fetch_of_endures hslave (he.mono (Nat.le_add_right _ more))]
    rfl
  rw [hpush]
  refine ⟨?_, rfl, rfl, rfl, rfl⟩
  constructor
  case toServing =>
    exact ⟨h.clockOn, h.unmasked, h.stalled, h.errors, h.heldPulses, rfl, fun _ => rfl⟩
  case mode => rfl
  case target => rfl
  case received =>
    have hcurrent := Slave.current_skip s 0
    rw [Slave.skip_zero] at hcurrent
    exact congrArg some hcurrent
  case slaves =>
    change b.slaves.set m.address ((b.slaves.get m.address).map Slave.advance) = _
    have hadvance := Slave.advance_skip s 0
    rw [Slave.skip_zero] at hadvance
    rw [hs, Option.map_some, hadvance]
  case endures => exact he

/-- The first stop request of a read is noted. -/
theorem Reading.stop (h : Reading b slaves source s taken more) (he : b.readEnd = .unset) :
    let b' := b.pushWord FifoWord.stop.bits
    Reading b' slaves source s taken more ∧ b'.readEnd = .announced ∧ b'.edge = b.edge ∧
      b'.tally = b.tally ∧ b'.carried = b.carried := by
  have hpush : b.pushWord FifoWord.stop.bits = { b with readEnd := .announced } := by
    rw [pushWord_stop h.stalled]
    unfold data
    rw [h.mode, he]
    rfl
  rw [hpush]
  refine ⟨?_, rfl, rfl, rfl, rfl⟩
  exact ⟨⟨h.clockOn, h.unmasked, h.stalled, h.errors, h.heldPulses, h.busActive, h.master⟩,
    h.mode, h.target, h.received, h.slaves, h.endures⟩

/-- What taking a byte does to the end of a read that goes on. -/
def ReadEnd.afterPull : ReadEnd → ReadEnd
  | unset => unset
  | _ => reached

theorem pullByte_of_read (hm : b.mode = .read) (hs : b.stalled = false)
    (he : b.readEnd ≠ .reached) :
    b.pullByte = (b.received.getD 0,
      fetch { b with received := none, readEnd := b.readEnd.afterPull }) := by
  unfold pullByte
  rw [hm, hs]
  cases hend : b.readEnd with
  | unset => rfl
  | announced => rfl
  | reached => exact absurd hend he

/-- As long as the end is not reached, a byte is taken and the next one comes in. -/
theorem Reading.pull (h : Reading b slaves source s taken (more + 1))
    (he : b.readEnd ≠ .reached) :
    b.pullByte.1 = s.peek taken ∧
      let b' := b.pullByte.2
      Reading b' slaves source s (taken + 1) more ∧ b'.readEnd = b.readEnd.afterPull ∧
        b'.edge.raised = true ∧ b'.tally = b.tally ∧ b'.carried = b.carried + 1 := by
  let rest := { b with received := none, readEnd := b.readEnd.afterPull }
  have hrest : rest.slaves.get rest.target = some (s.skip (taken + 1)) := by
    change b.slaves.get b.target = _
    rw [h.slaves, h.target, ByteTable.get_set_self]
  have hendures : (s.skip (taken + 1)).Endures (rest.carried + 1) :=
    Slave.Endures.mono h.endures (Nat.add_le_add_left (Nat.le_add_left 1 more) b.carried)
  rw [pullByte_of_read h.mode h.stalled he, fetch_of_endures hrest hendures, h.received]
  refine ⟨rfl, ?_, rfl, rfl, rfl, rfl⟩
  constructor
  case toServing =>
    exact ⟨h.clockOn, h.unmasked, h.stalled, h.errors, h.heldPulses, h.busActive, h.master⟩
  case mode => exact h.mode
  case target => exact h.target
  case received => rfl
  case slaves =>
    change rest.slaves.set rest.target ((rest.slaves.get rest.target).map Slave.advance) = _
    rw [hrest, Option.map_some, Slave.advance_skip]
    change b.slaves.set b.target _ = _
    rw [h.slaves, h.target, ByteTable.set_set]
  case endures =>
    change s.Endures (b.carried + 1 + more)
    rw [Nat.add_assoc, Nat.add_comm 1]
    exact h.endures

/-- Taking the last byte ends the read. -/
theorem Reading.pull_last (h : Reading b slaves source s taken more) (he : b.readEnd = .reached) :
    b.pullByte.1 = s.peek taken ∧ Ended b b.pullByte.2 := by
  have hpull : b.pullByte = (s.peek taken, release { b with received := none }) := by
    unfold pullByte
    rw [h.received, h.mode, h.stalled, he]
    rfl
  rw [hpull]
  refine ⟨rfl, ?_⟩
  constructor
  case serving =>
    exact ⟨h.clockOn, h.unmasked, rfl, h.errors, h.heldPulses, rfl, fun hm => absurd rfl hm⟩
  all_goals rfl

/-! ## Chains -/

/-- A read of no bytes is over with its address word. -/
theorem empty_addressWord {m : Message} (h : Open b) (hlen : m.length = 0)
    (ht : m.address ≤ 0x7f) (ha : b.acknowledged m.address = true) :
    let b' := b.pushWord (m.addressWord true).bits
    Serving b' ∧ b'.mode = .idle ∧ b'.received = none ∧ b'.slaves = b.slaves ∧
      b'.tally.starts = b.begun ∧ b'.tally.pulses = b.tally.pulses := by
  intro b'
  have hpush : b' = (b.begin.select m.address).release := by
    change b.pushWord (m.addressWord true).bits = _
    rw [pushWord_addressWord h.stalled ht ha, decide_eq_true hlen]
    rfl
  rw [hpush]
  refine ⟨?_, rfl, rfl, rfl, rfl, rfl⟩
  exact ⟨h.clockOn, h.unmasked, rfl, h.errors, h.heldPulses, rfl, fun hm => absurd rfl hm⟩

/-- What a bench comes to with a last message: a read has just begun, or all is over. -/
structure Arrived (b : Bench) (slaves : Slaves) (m : Message) (starts pulses : Nat) : Prop where
  starts : b.tally.starts = starts
  pulses : b.tally.pulses = pulses
  reads : m.isRead → 0 < m.length → ∃ s, slaves.get m.address = some s ∧
    Reading b slaves m.address s 0 (Slaves.fetched m.length - 1) ∧ b.readEnd = .unset
  ended : ¬ (m.isRead ∧ 0 < m.length) →
    Serving b ∧ b.mode = .idle ∧ b.received = none ∧ b.slaves = slaves.afterMessage m

theorem arrived_of_write {address : UInt8} {bytes : List UInt8} (h : Open b)
    (ht : address ≤ 0x7f) (hs : b.slaves.get address = some s) (ha : s.acknowledges)
    (he : s.Endures ((b.select address).carried + bytes.length)) :
    let m := Message.write address bytes
    Follows (b.pushWord (m.addressWord true).bits) (m.words true).tail ∧
      Arrived (pushAll b (m.words true)) b.slaves m b.begun b.tally.pulses := by
  obtain ⟨hfollows, hwrote⟩ := wrote_words h ht hs ha true he
  refine ⟨hfollows, hwrote.starts, hwrote.pulses, nofun, fun _ => ?_⟩
  exact ⟨hwrote.serving, hwrote.mode, hwrote.received, hwrote.slaves⟩

theorem arrived_of_read {address : UInt8} {buffer : List UInt8} (h : Open b)
    (ht : address ≤ 0x7f) (hs : b.slaves.get address = some s) (ha : s.acknowledges)
    (he : s.Endures ((b.select address).carried + Slaves.fetched buffer.length)) :
    let m := Message.read address buffer
    Arrived (b.pushWord (m.addressWord true).bits) b.slaves m b.begun b.tally.pulses := by
  intro m
  cases buffer with
  | nil =>
    obtain ⟨hserving, hmode, hreceived, hslaves, hstarts, hpulses⟩ :=
      empty_addressWord (m := m) h rfl ht (acknowledged_of_get hs ha)
    refine ⟨hstarts, hpulses, fun _ hl => absurd hl (Nat.lt_irrefl 0), fun _ => ?_⟩
    refine ⟨hserving, hmode, hreceived, hslaves.trans ?_⟩
    change b.slaves = b.slaves.set address ((b.slaves.get address).map fun s => s.skip 0)
    have hskip : (fun s : Slave => s.skip 0) = id := funext Slave.skip_zero
    rw [hskip, Option.map_id, id, ByteTable.set_get]
  | cons byte rest =>
    have hpos : 1 + (Slaves.fetched m.length - 1) = Slaves.fetched m.length := by
      have hlength : m.length = rest.length + 1 := rfl
      unfold Slaves.fetched
      split <;> omega
    have hendures : s.Endures ((b.select address).carried + 1 + (Slaves.fetched m.length - 1)) := by
      rw [Nat.add_assoc, hpos]
      exact he
    obtain ⟨hreading, hend, hstarts, hpulses, -⟩ :=
      reading_addressWord (m := m) h rfl (Nat.succ_ne_zero _) ht hs ha hendures true
    refine ⟨hstarts, hpulses, fun _ _ => ⟨s, hs, hreading, hend⟩, fun hnot => ?_⟩
    exact absurd ⟨rfl, Nat.succ_pos _⟩ hnot

theorem arrived_of_words {m : Message} (h : Open b) (hs : Slaves.Serve b.slaves m) :
    Follows (b.pushWord (m.addressWord true).bits) (m.words true).tail ∧
      Arrived (pushAll b (m.words true)) b.slaves m b.begun b.tally.pulses := by
  obtain ⟨haddress, s, hget, hack, hcalm⟩ := hs
  obtain ⟨address, payload⟩ := m
  cases payload with
  | write bytes =>
    exact arrived_of_write h haddress hget hack (Slave.endures_of_none hcalm _)
  | read buffer =>
    exact ⟨trivial, arrived_of_read h haddress hget hack (Slave.endures_of_none hcalm _)⟩

/-- The words of a chain whose last message alone may be a read. -/
theorem arrived_of_frame (h : Open b) (before : List Message) (m : Message)
    (hw : ∀ w ∈ before, w.isRead = false)
    (hs : ∀ w ∈ before ++ [m], Slaves.Serve b.slaves w) :
    (∃ word rest, Message.frame (before ++ [m]) = word :: rest ∧
      Follows (b.pushWord word.bits) rest) ∧
    Arrived (pushAll b (Message.frame (before ++ [m]))) (Slaves.replay b.slaves before) m b.begun
      b.tally.pulses := by
  obtain ⟨hopen, hslaves, hbegun, hpulses, hfollows⟩ :=
    follows_opening h before hw fun w hmem => hs w (List.mem_append_left _ hmem)
  have hserve := Slaves.serve_replay (hs m (List.mem_append_right _ (List.mem_singleton_self m)))
    before
  rw [← hslaves] at hserve
  obtain ⟨hlast, harrived⟩ := arrived_of_words hopen hserve
  rw [hslaves, hbegun, hpulses, ← pushAll_append, ← Message.frame_concat] at harrived
  rw [Message.frame_concat] at harrived ⊢
  exact ⟨hfollows hlast, harrived⟩

end TwoWire.Bench
