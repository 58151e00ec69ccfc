import TwoWire.Proofs.StalledWrite
/-!
# Reads from a slave that stalls

A register read writes its bytes and, after a repeated start, fills its buffer. Wherever its slave
stalls in between, the registers are left as the write part leaves them, or as a part of it does.
The bus is cleared with one pulse and a second attempt, in which nothing stalls any more, answers as
if it had been the only one. No second attempt is made if the slave stalled at the byte beyond a
single-byte read, for its buffer is full by then.
-/
namespace TwoWire.Bench
open Program (ends ends_bind_eq)

variable {bus : Bus} {b : Bench} {t : Transaction} {slaves : Slaves} {source : UInt8} {s : Slave}
  {taken more : Nat}

/-! ## A fetch that stalls -/

theorem fetch_of_stall (hs : b.slaves.get b.target = some s)
    (hlimit : s.stallAfter = some b.carried) : b.fetch = b.stall := by
  unfold fetch
  rw [isStallDue_of_limit hs hlimit, if_pos rfl]

theorem slaves_stall (hs : b.slaves.get b.target = some s) :
    b.stall.slaves = b.slaves.set b.target (some s.calm) := by
  change b.slaves.set b.target ((b.slaves.get b.target).map Slave.calm) = _
  rw [hs, Option.map_some]

/-- The address word of a read is sent, and the slave stalls at its first byte. -/
theorem held_addressWord {m : Message} (h : Open b) (hm : m.isRead) (hlen : m.length ≠ 0)
    (ht : m.address ≤ 0x7f) (hs : b.slaves.get m.address = some s) (ha : s.acknowledges)
    (hlimit : s.stallAfter = some (b.select m.address).carried) (last : Bool) :
    let b' := b.pushWord (m.addressWord last).bits
    Held b' ∧ b'.received = none ∧ b'.slaves = b.slaves.set m.address (some s.calm) ∧
      b'.tally.starts = b.begun ∧ b'.tally.pulses = b.tally.pulses := by
  intro b'
  let reading := { b.begin.select m.address with mode := .read }
  have hslave : reading.slaves.get reading.target = some s := hs
  have hpush : b' = reading.stall := by
    change b.pushWord (m.addressWord last).bits = _
    rw [pushWord_addressWord h.stalled ht (acknowledged_of_get hs ha), hm, decide_eq_false hlen,
      Bool.and_false, ← fetch_of_stall hslave hlimit]
    rfl
  rw [hpush]
  exact ⟨⟨h.clockOn, h.unmasked, rfl, h.errors, rfl⟩, rfl, slaves_stall hslave, rfl, rfl⟩

/-- A byte is taken, and the slave stalls at the next one. -/
theorem Reading.pull_stalled (h : Reading b slaves source s taken more)
    (hlimit : s.stallAfter = some b.carried) (he : b.readEnd ≠ .reached) :
    b.pullByte.1 = s.peek taken ∧
      let b' := b.pullByte.2
      Held b' ∧ b'.slaves = slaves.set source (some (s.skip (taken + 1)).calm) ∧
        b'.edge = b.edge ∧ b'.tally = b.tally := by
  let rest := { b with received := none, readEnd := b.readEnd.afterPull }
  have hrest : rest.slaves.get rest.target = some (s.skip (taken + 1)) := by
    change b.slaves.get b.target = _
    rw [h.slaves, h.target, ByteTable.get_set_self]
  have hslaves := slaves_stall hrest
  rw [pullByte_of_read h.mode h.stalled he, fetch_of_stall hrest hlimit, h.received]
  refine ⟨rfl, ⟨h.clockOn, h.unmasked, rfl, h.errors, rfl⟩, ?_, rfl, rfl⟩
  rw [hslaves]
  change b.slaves.set b.target _ = _
  rw [h.slaves, h.target, ByteTable.set_set]

/-! ## Waiting for a read that stalls -/

/-- A transaction that waits for a byte goes on waiting while its slave holds the bus. The event that
its address word may have raised moves nothing. -/
theorem ends_settle_waiting (hbus : bus.config = config) (hb : Held b) (hr : b.received = none)
    (ht : t.Running) (hn : t.nextWord? = none) :
    ∃ t' b', (Session.settle bus 0 t).ends respond b = (⟨false, t'⟩, b') ∧ Alike b b' ∧
      (t' = t ∨ t' = t.advance false) := by
  by_cases he : b.edge.raised = true
  · obtain ⟨hclean, hroom, hfull, hbusy⟩ := sample_liveBits b
    rw [hr] at hfull
    have hevent := ends_onEvent_rest (b := b.attended) ht.isInert hclean hroom hfull hn
    have hpoll := ends_poll hbus hb.clockOn hb.unmasked t
    dsimp only at hpoll
    rw [hb.errors, UInt32.zero_or, he, Bool.true_or, Bool.true_or, if_pos rfl, hevent, hbusy,
      hb.isActive] at hpoll
    have hstill := ends_settle_still (show 0 < Session.pollLimit by decide) hpoll rfl
      (Transaction.moved_advance t false)
    have hattended := Alike.attended hb.errors
    obtain ⟨b₁, hpause, halike, hedge⟩ := ends_backoff 0 b.attended
    have hlowered : b₁.edge.raised = false := by
      rw [hedge]
      rfl
    obtain ⟨b', hsettle, halike'⟩ :=
      ends_settle_held (t := t.advance false) hbus (hb.alike (hattended.trans halike)) hlowered
        (show 0 + 1 + 199 = Session.pollLimit by rfl)
    refine ⟨_, b', ?_, (hattended.trans halike).trans halike', .inr rfl⟩
    rw [hstill, hpause]
    exact hsettle
  · rw [Bool.not_eq_true] at he
    obtain ⟨b', hsettle, halike⟩ := ends_settle_held (t := t) hbus hb he (Nat.zero_add _)
    exact ⟨t, b', hsettle, halike, .inl rfl⟩

/-- A poll stores the last byte that comes before the stall, and the wait is given up after it. -/
theorem ends_settle_cut (hbus : bus.config = config) {before : List Message} {m : Message}
    (hb : Reading b slaves source s taken 0) (hlimit : s.stallAfter = some b.carried)
    (he : b.edge.raised = true) (hend : b.readEnd = .unset) (ht : t.Running)
    (hf : Filling before m s taken t) (hl : 0 < t.left) :
    ∃ b', (Session.settle bus 0 t).ends respond b =
        (⟨false, (t.received taken (s.peek taken)).advance false⟩, b') ∧
      Held b' ∧ b'.slaves = slaves.set source (some (s.skip (taken + 1)).calm) ∧
      b'.tally.starts = b.tally.starts ∧ b'.tally.pulses = b.tally.pulses := by
  obtain ⟨hn, hs⟩ := hf.next hl
  obtain ⟨b₁, hready, hb₁, hend₁, hedge, htally, hcarried⟩ :=
    ends_stopIf_reading hb hend (t.stopDue taken)
  have hnot : b₁.readEnd ≠ .reached := by
    rw [hend₁]
    split <;> exact nofun
  rw [← hcarried] at hlimit
  obtain ⟨hbyte, hheld, hslaves, hedge', htally'⟩ := hb₁.pull_stalled hlimit hnot
  have hstep := ends_settle_store hbus hb he ht hn hs hready hb₁
  rw [hbyte] at hstep
  have hlowered : b₁.pullByte.2.edge.raised = false := by rw [hedge', hedge]
  obtain ⟨b', hsettle, halike⟩ := ends_settle_held hbus hheld hlowered (Nat.zero_add _)
  refine ⟨b', hstep.trans hsettle, hheld.alike halike, halike.slaves.trans hslaves, ?_, ?_⟩
  · rw [halike.starts, htally', htally]
  · rw [halike.pulses, htally', htally]

/-- The bytes before the stall are stored one after another, and then the wait is given up. -/
theorem ends_settle_stalling (hbus : bus.config = config) {before : List Message} {m : Message}
    (hb : Reading b slaves source s taken more) (hlimit : s.stallAfter = some (b.carried + more))
    (he : b.edge.raised = true) (hend : b.readEnd = .unset) (ht : t.Running)
    (hf : Filling before m s taken t) (hl : 0 < t.left) (hmore : 0 < more → more + 1 < t.left) :
    ∃ t' b', (Session.settle bus 0 t).ends respond b = (⟨false, t'⟩, b') ∧ t'.fault = none ∧
      Filling before m s (taken + (more + 1)) t' ∧ Held b' ∧
      b'.slaves = slaves.set source (some (s.skip (taken + (more + 1))).calm) ∧
      b'.tally.starts = b.tally.starts ∧ b'.tally.pulses = b.tally.pulses := by
  induction more generalizing b t taken with
  | zero =>
    obtain ⟨b', hsettle, hheld, hslaves, hstarts, hpulses⟩ :=
      ends_settle_cut hbus hb hlimit he hend ht hf hl
    obtain ⟨phase, -, hfilling⟩ := (hf.received hl).advance false
    refine ⟨_, b', hsettle, ?_, hfilling, hheld, hslaves, hstarts, hpulses⟩
    rw [Transaction.fault_advance]
    exact ht.fault
  | succ more ih =>
    have hlong := hmore (Nat.succ_pos more)
    obtain ⟨b₁, hstep, hb₁, he₁, hend₁, htally, hcarried⟩ :=
      ends_settle_fetch hbus hb he hend ht hf hl
    obtain ⟨hrunning, hfilling, hleft⟩ := hf.store ht hl fun hone => by omega
    have hdue : t.stopDue taken = false := by
      unfold Transaction.stopDue Transaction.isSingle
      rw [decide_eq_false (by omega), decide_eq_false (by omega)]
      rfl
    rw [hdue, if_neg Bool.false_ne_true] at hend₁
    have hlimit₁ : s.stallAfter = some (b₁.carried + more) := by
      rw [hlimit, hcarried, Nat.add_assoc, Nat.add_comm 1]
    obtain ⟨t', b', hsettle, hfault, hend', hheld, hslaves, hstarts, hpulses⟩ :=
      ih hb₁ hlimit₁ he₁ hend₁ hrunning hfilling (by omega) (by omega)
    rw [htally] at hstarts hpulses
    rw [Nat.add_assoc taken 1, Nat.add_comm 1] at hend' hslaves
    exact ⟨t', b', hstep.trans hsettle, hfault, hend', hheld, hslaves, hstarts, hpulses⟩

/-! ## One attempt -/

/-- A register read as one transaction. -/
def registerRead (address : UInt8) (bytes buffer : List UInt8) : List Message :=
  [.write address bytes, .read address buffer]

theorem valid_registerRead {address : UInt8} (ht : address ≤ 0x7f) (bytes buffer : List UInt8) :
    Message.Valid (registerRead address bytes buffer) := by
  refine ⟨List.cons_ne_nil _ _, List.forall_mem_cons.mpr ⟨ht, ?_⟩⟩
  exact List.forall_mem_singleton.mpr ht

theorem writes_before_read (address : UInt8) (bytes : List UInt8) :
    ∀ w ∈ [Message.write address bytes], w.isRead = false :=
  List.forall_mem_singleton.mpr rfl

/-- The words of a register read up to the address of its second part. -/
def registerWords (bytes : List UInt8) (m : Message) : List FifoWord :=
  Message.dataWords false bytes ++ [m.addressWord true]

theorem frame_registerRead (address : UInt8) (bytes buffer : List UInt8) :
    Message.frame (registerRead address bytes buffer) =
      (Message.write address bytes).addressWord false ::
        registerWords bytes (.read address buffer) := rfl

/-- A bench that has taken the write part of a register read, which led it from `b` to `b'`. -/
structure Aimed (b : Bench) (address : UInt8) (s : Slave) (carried : Nat) (b' : Bench) : Prop
    extends Open b' where
  slaves : b'.slaves = b.slaves.set address (some s)
  carried : (b'.select address).carried = carried
  starts : b'.begun = b.begun
  pulses : b'.tally.pulses = b.tally.pulses

theorem Aimed.get {address : UInt8} {carried : Nat} {b' : Bench}
    (h : Aimed b address s carried b') : b'.slaves.get address = some s := by
  rw [h.slaves, ByteTable.get_set_self]

/-- If no stall comes up in the write part, the bench asks for its words and for the address after
them. -/
theorem follows_registerRead (h : Open b) (hidle : b.mode = .idle) {address : UInt8}
    (ht : address ≤ 0x7f) (hs : b.slaves.get address = some s) (ha : s.acknowledges)
    {bytes : List UInt8} (he : s.Endures bytes.length) (buffer : List UInt8) :
    let word := (Message.write address bytes).addressWord false
    let words := registerWords bytes (.read address buffer)
    ∃ b', Aimed b address (s.write bytes) bytes.length b' ∧
      Follows (b.pushWord word.bits) words ∧
      pushAll b (word :: words) =
        b'.pushWord ((Message.read address buffer).addressWord true).bits := by
  intro word words
  have hcarried : (b.select address).carried = 0 := if_pos (.inr hidle)
  obtain ⟨hfollows, hwrote⟩ := wrote_words h ht hs ha false (by
    rw [hcarried, Nat.zero_add]
    exact he)
  have hwriting := hwrote.writing
  have hpush : pushAll b (word :: words) =
      pushAll (pushAll b ((Message.write address bytes).words false))
        [(Message.read address buffer).addressWord true] := by
    rw [← pushAll_append]
    rfl
  refine ⟨pushAll b ((Message.write address bytes).words false), ?_, ?_, hpush⟩
  · constructor
    case toOpen => exact hwriting.isOpen
    case slaves => rw [hwrote.slaves, Slaves.afterMessage_write hs]
    case carried =>
      have hsame : ¬ ((pushAll b ((Message.write address bytes).words false)).target ≠ address ∨
          (pushAll b ((Message.write address bytes).words false)).mode = .idle) := by
        rw [hwrote.target, hwrote.mode]
        rintro (hother | hother)
        · exact hother rfl
        · cases hother
      refine (if_neg hsame).trans (hwrote.carried.trans ?_)
      change (b.select address).carried + bytes.length = bytes.length
      rw [hcarried, Nat.zero_add]
    case starts =>
      rw [begun, hwrote.mode, hwrote.starts]
      rfl
    case pulses => exact hwrote.pulses
  · exact follows_append.mpr ⟨hfollows, hwriting, trivial⟩

/-- The wait for a read whose slave stalls at one of the bytes that are fetched for it. The bytes
before that one are in the buffer. -/
theorem ends_settle_stranded (hbus : bus.config = config) {before : List Message} {m : Message}
    {b₁ b' : Bench} {carried stall : Nat} (haimed : Aimed b m.address s carried b₁)
    (hm : m.isRead) (ht : m.address ≤ 0x7f) (ha : s.acknowledges)
    (hstall : stall < Slaves.fetched m.length) (hlimit : s.stallAfter = some (carried + stall))
    (halike : Alike (b₁.pushWord (m.addressWord true).bits) b') (hrung : Rung b')
    (hrun : t.Running) (hf : Filling before m s 0 t) :
    ∃ t' b'', (Session.settle bus 0 t).ends respond b' = (⟨false, t'⟩, b'') ∧ t'.fault = none ∧
      Filling before m s stall t' ∧ Held b'' ∧
      b''.slaves = b.slaves.set m.address (some (s.skip stall).calm) ∧
      b''.tally.starts = b.begun ∧ b''.tally.pulses = b.tally.pulses := by
  have hleft := hf.length
  have hlen : m.length ≠ 0 := by
    intro hzero
    rw [hzero] at hstall
    exact Nat.not_lt_zero stall hstall
  rw [← haimed.starts, ← haimed.pulses]
  rw [← haimed.carried] at hlimit
  cases stall with
  | zero =>
    obtain ⟨hheld, hreceived, hslaves, hstarts, hpulses⟩ :=
      held_addressWord haimed.toOpen hm hlen ht haimed.get ha hlimit true
    have hn := (hf.next (by omega)).1
    obtain ⟨t', b'', hsettle, halike', ht'⟩ :=
      ends_settle_waiting hbus (hheld.alike halike) (halike.received.trans hreceived) hrun hn
    have hall := halike.trans halike'
    obtain ⟨hfault, hfilling⟩ : t'.fault = none ∧ Filling before m s 0 t' := by
      rcases ht' with rfl | rfl
      · exact ⟨hrun.fault, hf⟩
      · obtain ⟨-, -, hfilling⟩ := hf.advance false
        exact ⟨(Transaction.fault_advance t false).trans hrun.fault, hfilling⟩
    refine ⟨t', b'', hsettle, hfault, hfilling, hheld.alike hall, ?_, hall.starts.trans hstarts,
      hall.pulses.trans hpulses⟩
    rw [hall.slaves, hslaves, haimed.slaves, ByteTable.set_set, Slave.skip_zero]
  | succ more =>
    have hendures : s.Endures ((b₁.select m.address).carried + 1 + more) := by
      intro limit hl
      rw [hlimit] at hl
      cases hl
      omega
    obtain ⟨hreading, hend, hstarts, hpulses, hcarried⟩ :=
      reading_addressWord haimed.toOpen hm hlen ht haimed.get ha hendures true
    have hnow := hreading.alike halike
    have hcarried' : b'.carried = (b₁.select m.address).carried + 1 :=
      halike.carried.trans hcarried
    have hlong : 0 < more → more + 1 < t.left := by
      unfold Slaves.fetched at hstall
      split at hstall <;> omega
    obtain ⟨t', b'', hsettle, hfault, hfilling, hheld, hslaves, hstarts', hpulses'⟩ :=
      ends_settle_stalling hbus hnow (by rw [hlimit, hcarried', Nat.add_assoc, Nat.add_comm 1])
        (hrung hnow.stalled) (halike.readEnd.trans hend) hrun hf (by omega) hlong
    rw [Nat.zero_add] at hfilling hslaves
    refine ⟨t', b'', hsettle, hfault, hfilling, hheld, ?_, ?_, ?_⟩
    · rw [hslaves, haimed.slaves, ByteTable.set_set]
    · rw [hstarts', halike.starts, hstarts]
    · rw [hpulses', halike.pulses, hpulses]

/-- A message counts as moved in full once its buffer is full. -/
theorem Filling.completed {before : List Message} {m : Message} (hf : Filling before m s taken t) :
    t.completed = before.length + if t.left = 0 then 1 else 0 := by
  have hlt : t.current < t.chain.length := by
    have := hf.messagesLeft
    unfold Transaction.messagesLeft at this
    omega
  unfold Transaction.completed
  rw [hf.current] at hlt ⊢
  rw [hf.position]
  simp only [hlt, Option.isSome_some, true_and]

section
variable (hbus : bus.config = config) (h : Open b) (hidle : b.mode = .idle) {address : UInt8}
  (ht : address ≤ 0x7f) (hs : b.slaves.get address = some s) (ha : s.acknowledges)
  {bytes buffer : List UInt8}
include hbus h hidle ht hs ha

/-- An attempt in which no stall comes up answers with what the slave holds. -/
theorem ends_carry_registerRead
    (he : s.Endures (bytes.length + Slaves.fetched buffer.length)) :
    ∃ b', (Session.carry bus (registerRead address bytes buffer)).ends respond b =
        (⟨.ok 2, registerRead address bytes ((s.write bytes).window buffer.length)⟩, b') ∧
      Rested b' (b.slaves.set address
          (some ((s.write bytes).skip (Slaves.fetched buffer.length)))) b.begun b.tally.pulses := by
  obtain ⟨b₁, haimed, hfollows, hpush⟩ :=
    follows_registerRead h hidle ht hs ha (he.mono (Nat.le_add_right _ _)) buffer
  have hack : (s.write bytes).acknowledges := by rw [Slave.acknowledges_write, ha]
  have hendures : (s.write bytes).Endures
      ((b₁.select address).carried + Slaves.fetched buffer.length) := by
    intro limit hlimit
    rw [Slave.stallAfter_write] at hlimit
    rw [haimed.carried]
    exact he limit hlimit
  have harrived : Arrived (b₁.pushWord ((Message.read address buffer).addressWord true).bits)
      b₁.slaves (.read address buffer) b₁.begun b₁.tally.pulses :=
    arrived_of_read haimed.toOpen ht haimed.get hack hendures
  rw [← hpush] at harrived
  obtain ⟨b', hcarry, hrested⟩ := ends_carry_arrived hbus h (writes_before_read address bytes)
    (valid_registerRead ht bytes buffer).2 (frame_registerRead address bytes buffer) hfollows
    harrived
  obtain ⟨hanswer, hafter⟩ := answer_of_read (m := .read address buffer) rfl haimed.get
  rw [hanswer] at hcarry
  rw [hafter, haimed.starts, haimed.pulses, haimed.slaves] at hrested
  refine ⟨b', hcarry, ?_⟩
  have hset := ByteTable.set_set b.slaves address (some (s.write bytes))
    (some ((s.write bytes).skip (Slaves.fetched buffer.length)))
  rw [← hset]
  exact hrested

/-- An attempt whose slave stalls at one of the bytes that are fetched for its read part. It counts
as complete only if the buffer is full. -/
theorem ends_carry_stranded {stall : Nat} (hstall : stall < Slaves.fetched buffer.length)
    (hlimit : s.stallAfter = some (bytes.length + stall)) :
    ∃ completed buffer' b', (Session.carry bus (registerRead address bytes buffer)).ends respond b =
        (⟨.ok completed, registerRead address bytes buffer'⟩, b') ∧
      buffer'.length = buffer.length ∧
      (completed = 2 → buffer' = (s.write bytes).window buffer.length) ∧
      Rested b' (b.slaves.set address (some ((s.write bytes).skip stall).calm)) b.begun
        (b.tally.pulses + 1) := by
  have hendures : s.Endures bytes.length := by
    intro limit hl
    rw [hlimit] at hl
    cases hl
    exact Nat.le_add_right _ _
  obtain ⟨b₁, haimed, hfollows, hpush⟩ := follows_registerRead h hidle ht hs ha hendures buffer
  obtain ⟨t, b', hrun, hchain, hahead, halike, hrung, hcarry⟩ :=
    ends_carry_words hbus h (writes_before_read address bytes)
      (valid_registerRead ht bytes buffer).2 (frame_registerRead address bytes buffer) hfollows
  have hack : (s.write bytes).acknowledges := by rw [Slave.acknowledges_write, ha]
  have hpos : 0 < (Message.read address buffer).length := by
    refine Nat.pos_of_ne_zero fun hzero => ?_
    have hnone : buffer.length = 0 := hzero
    rw [hnone] at hstall
    exact Nat.not_lt_zero stall hstall
  obtain ⟨hfilling, hleft⟩ := filling_of_ahead hrun hchain hahead rfl hpos (s.write bytes)
  rw [hpush] at halike
  obtain ⟨t', b₂, hsettle, hfault, hfilling', hheld, hslaves, hstarts, hpulses⟩ :=
    ends_settle_stranded (m := .read address buffer) hbus haimed rfl ht hack hstall
      ((Slave.stallAfter_write s bytes).trans hlimit) halike hrung hrun hfilling
  obtain ⟨b₃, habandon, hclocked⟩ := ends_abandon hbus hheld hfault
  have hrested := hheld.rested hclocked
  rw [hslaves, hstarts, hpulses] at hrested
  let received := (s.write bytes).window stall
  have hanswer : t'.chain = registerRead address bytes (received ++ buffer.drop received.length) :=
    hfilling'.chain
  have hlength : stall + t'.left = buffer.length := hfilling'.length
  refine ⟨t'.completed, received ++ buffer.drop received.length, b₃, ?_, ?_, fun hall => ?_,
    hrested⟩
  · have hends := (hcarry hsettle).trans habandon
    rw [hanswer] at hends
    exact hends
  · rw [List.length_append, List.length_drop, Slave.length_window]
    omega
  · have hfull : stall = buffer.length := by
      rw [hfilling'.completed] at hall
      by_cases hleft' : t'.left = 0
      · omega
      · rw [if_neg hleft'] at hall
        cases hall
    change (s.write bytes).window stall ++ buffer.drop ((s.write bytes).window stall).length = _
    rw [Slave.length_window, hfull, List.drop_length, List.append_nil]

end

/-! ## Attempts -/

theorem Slave.pointer_storeAll (s : Slave) (bytes : List UInt8) :
    (s.storeAll bytes).pointer = s.pointer + UInt8.ofNat bytes.length := by
  induction bytes generalizing s with
  | nil => exact (UInt8.add_zero s.pointer).symm
  | cons byte rest ih =>
    rw [storeAll, ih, List.length_cons, UInt8.ofNat_add, UInt8.add_comm (UInt8.ofNat rest.length),
      ← UInt8.add_assoc]
    rfl

/-- What is read after a write is told by the registers after it. -/
theorem Slave.window_write_congr {s s' : Slave} {bytes : List UInt8} (hne : bytes ≠ [])
    (h : (s.write bytes).registers = (s'.write bytes).registers) (n : Nat) :
    (s.write bytes).window n = (s'.write bytes).window n := by
  have hpointer : (s.write bytes).pointer = (s'.write bytes).pointer := by
    obtain ⟨register, rest, rfl⟩ := List.exists_cons_of_ne_nil hne
    change ((s.aim register).storeAll rest).pointer = ((s'.aim register).storeAll rest).pointer
    rw [pointer_storeAll, pointer_storeAll]
    rfl
  unfold window peek
  rw [h, hpointer]

section
variable {m : Master} {address : UInt8} (hm : m.installed = true)
  (hconfig : m.bus.config = config) (hb : Quiescent b) (ht : address ≤ 0x7f)
  (hs : b.slaves.get address = some s) (ha : s.acknowledges) {bytes buffer : List UInt8}
include hm hconfig hb ht hs ha

theorem ends_transact_registerRead
    (he : s.Endures (bytes.length + Slaves.fetched buffer.length)) :
    ∃ b', (m.transact (registerRead address bytes buffer)).ends respond b =
        (⟨.ok 2, registerRead address bytes ((s.write bytes).window buffer.length)⟩, b') ∧
      Quiescent b' ∧
      b'.slaves = b.slaves.set address
        (some ((s.write bytes).skip (Slaves.fetched buffer.length))) ∧
      b'.tally.starts = b.tally.starts + 1 ∧ b'.tally.pulses = b.tally.pulses := by
  obtain ⟨b', hcarry, hrested⟩ :=
    ends_carry_registerRead hconfig hb.attended hb.mode ht hs ha he
  exact ends_transact_rested hm hconfig hb (valid_registerRead ht bytes buffer) hcarry hrested

theorem ends_transact_stranded {stall : Nat} (hstall : stall < Slaves.fetched buffer.length)
    (hlimit : s.stallAfter = some (bytes.length + stall)) :
    ∃ completed buffer' b', (m.transact (registerRead address bytes buffer)).ends respond b =
        (⟨.ok completed, registerRead address bytes buffer'⟩, b') ∧
      buffer'.length = buffer.length ∧
      (completed = 2 → buffer' = (s.write bytes).window buffer.length) ∧ Quiescent b' ∧
      b'.slaves = b.slaves.set address (some ((s.write bytes).skip stall).calm) ∧
      b'.tally.starts = b.tally.starts + 1 ∧ b'.tally.pulses = b.tally.pulses + 1 := by
  obtain ⟨completed, buffer', b', hcarry, hlength, hfull, hrested⟩ :=
    ends_carry_stranded hconfig hb.attended hb.mode ht hs ha hstall hlimit
  obtain ⟨b'', hends, hquiescent⟩ :=
    ends_transact_rested hm hconfig hb (valid_registerRead ht bytes buffer) hcarry hrested
  exact ⟨completed, buffer', b'', hends, hlength, hfull, hquiescent⟩

end

/-- What a register read comes to that succeeds: its registers hold what its write part puts there,
its buffer what they hold then, and at most one attempt was broken off. -/
structure Reread (b : Bench) (address : UInt8) (s : Slave) (bytes buffer : List UInt8)
    (answer : Answer Unit) (b' : Bench) : Prop where
  result : answer.result = .ok ()
  chain : answer.chain = registerRead address bytes ((s.write bytes).window buffer.length)
  quiescent : Quiescent b'
  slaves : ∃ s' : Slave, b'.slaves = b.slaves.set address (some s') ∧
    s'.registers = (s.write bytes).registers
  starts : b'.tally.starts ≤ b.tally.starts + 2
  pulses : b'.tally.pulses ≤ b.tally.pulses + 1

section
variable {m : Master} {address : UInt8} {bytes buffer : List UInt8} {b' : Bench}

theorem ends_writeRead (hm : m.installed = true) (b : Bench) :
    (m.writeRead address bytes buffer).ends respond b =
      (m.persist Master.readRetries Master.readRetries (registerRead address bytes buffer)).ends
        respond b := by
  rw [Master.writeRead, Master.ends_transactRetrying hm]
  rfl

/-- An attempt that gets both messages through is the only one. -/
theorem reread_once (hm : m.installed = true) {s' : Slave}
    (hends : (m.transact (registerRead address bytes buffer)).ends respond b =
      (⟨.ok 2, registerRead address bytes ((s.write bytes).window buffer.length)⟩, b'))
    (hquiescent : Quiescent b') (hslaves : b'.slaves = b.slaves.set address (some s'))
    (hregisters : s'.registers = (s.write bytes).registers)
    (hstarts : b'.tally.starts = b.tally.starts + 1)
    (hpulses : b'.tally.pulses ≤ b.tally.pulses + 1) :
    ∃ answer b', (m.writeRead address bytes buffer).ends respond b = (answer, b') ∧
      Reread b address s bytes buffer answer b' := by
  refine ⟨_, b', (ends_writeRead hm b).trans (Master.ends_persist_done hends _ _), rfl, rfl, hquiescent,
    ⟨s', hslaves, hregisters⟩, ?_, hpulses⟩
  rw [hstarts]
  omega

/-- After an attempt that was broken off nothing stalls any more, and a second one gets both messages
through. -/
theorem reread_again (hm : m.installed = true) (hconfig : m.bus.config = config)
    (ht : address ≤ 0x7f) {completed : Nat} {buffer' : List UInt8} {s₁ : Slave}
    (hfirst : (m.transact (registerRead address bytes buffer)).ends respond b =
      (⟨.ok completed, registerRead address bytes buffer'⟩, b'))
    (hcompleted : completed ≠ 2) (hlength : buffer'.length = buffer.length) (hne : bytes ≠ [])
    (hb' : Quiescent b') (hslaves : b'.slaves = b.slaves.set address (some s₁.calm))
    (ha : s₁.acknowledges) (hregisters : (s₁.write bytes).registers = (s.write bytes).registers)
    (hstarts : b'.tally.starts = b.tally.starts + 1)
    (hpulses : b'.tally.pulses = b.tally.pulses + 1) :
    ∃ answer b', (m.writeRead address bytes buffer).ends respond b = (answer, b') ∧
      Reread b address s bytes buffer answer b' := by
  have hget : b'.slaves.get address = some s₁.calm := by
    rw [hslaves, ByteTable.get_set_self]
  have hsame : s₁.calm.registers = s₁.registers := rfl
  have hcalm : (s₁.calm.write bytes).registers = (s.write bytes).registers :=
    (Slave.registers_write_congr hsame bytes).trans hregisters
  obtain ⟨b'', hsecond, hquiescent, hend, hstarts', hpulses'⟩ :=
    ends_transact_registerRead hm hconfig (hb'.delay (Master.retryMicros * 1000)) ht hget ha
      (Slave.endures_of_none rfl (bytes.length + Slaves.fetched buffer'.length))
  have hagain := Master.ends_persist_again hfirst (Answer.not_final_ok hcompleted)
    Master.readRetries 9
  have hends := (ends_writeRead hm b).trans (hagain.trans (Master.ends_persist_done hsecond _ _))
  refine ⟨_, b'', hends, rfl, ?_, hquiescent,
    ⟨(s₁.calm.write bytes).skip (Slaves.fetched buffer'.length), hend.trans ?_, hcalm⟩, ?_, ?_⟩
  · change registerRead address bytes _ = _
    rw [hlength, Slave.window_write_congr hne hcalm]
  · change b'.slaves.set address _ = _
    rw [hslaves, ByteTable.set_set]
  · rw [hstarts']
    exact Nat.le_of_eq (congrArg (· + 1) hstarts)
  · rw [hpulses']
    exact Nat.le_of_eq hpulses

/-- A register read from a slave that acknowledges succeeds, wherever the slave stalls. -/
theorem reread_of_quiescent (hm : m.installed = true) (hconfig : m.bus.config = config)
    (hb : Quiescent b) (ht : address ≤ 0x7f) (hs : b.slaves.get address = some s)
    (ha : s.acknowledges) (hne : bytes ≠ []) :
    ∃ answer b', (m.writeRead address bytes buffer).ends respond b = (answer, b') ∧
      Reread b address s bytes buffer answer b' := by
  rcases s.endures_or_stalls bytes with he | ⟨before, byte, after, rfl, hlimit⟩
  · by_cases hall : s.Endures (bytes.length + Slaves.fetched buffer.length)
    · -- no stall comes up
      obtain ⟨b', hends, hquiescent, hslaves, hstarts, hpulses⟩ :=
        ends_transact_registerRead hm hconfig hb ht hs ha hall
      exact reread_once hm hends hquiescent hslaves rfl hstarts (by omega)
    · -- the slave stalls at a byte that is fetched
      obtain ⟨stall, hstall, hlimit⟩ : ∃ stall < Slaves.fetched buffer.length,
          s.stallAfter = some (bytes.length + stall) := by
        cases hlimit : s.stallAfter with
        | none => exact absurd (Slave.endures_of_none hlimit _) hall
        | some limit =>
          have hwrite := he limit hlimit
          refine ⟨limit - bytes.length, Nat.lt_of_not_le fun hle => hall ?_, ?_⟩
          · intro other hother
            rw [hlimit] at hother
            cases hother
            omega
          · rw [Nat.add_sub_of_le hwrite]
      obtain ⟨completed, buffer', b', hends, hlength, hfull, hquiescent, hslaves, hstarts,
        hpulses⟩ := ends_transact_stranded hm hconfig hb ht hs ha hstall hlimit
      by_cases hcompleted : completed = 2
      · rw [hcompleted, hfull hcompleted] at hends
        exact reread_once hm hends hquiescent hslaves rfl hstarts (Nat.le_of_eq hpulses)
      · refine reread_again hm hconfig ht hends hcompleted hlength hne hquiescent hslaves ?_ ?_
          hstarts hpulses
        · change (s.write bytes).acknowledges = true
          rw [Slave.acknowledges_write, ha]
        · have htwice := Slave.registers_write_write_take s bytes bytes.length
          rw [List.take_length] at htwice
          have hsame : ((s.write bytes).skip stall).registers = (s.write bytes).registers := rfl
          exact (Slave.registers_write_congr hsame bytes).trans htwice
  · -- the slave stalls at a byte that is written
    obtain ⟨completed, b', hends, hcompleted, hquiescent, hslaves, hstarts, hpulses⟩ :=
      ends_transact_stalled hm hconfig hb ht hs ha hlimit byte after [.read address buffer]
        (List.forall_mem_singleton.mpr ht)
    have hshort : completed ≠ 2 := fun hall => by cases (hcompleted.mp hall).2
    refine reread_again hm hconfig ht hends hshort rfl hne hquiescent hslaves ?_ ?_ hstarts hpulses
    · rw [Slave.acknowledges_write, ha]
    · have hagain := Slave.registers_write_write_take s (before ++ byte :: after) before.length
      rwa [List.take_left] at hagain

end

end TwoWire.Bench

namespace TwoWire.Master
open Program (ends)

variable {m : Master} {address : UInt8} {bytes : List UInt8}

/-- A register read on a quiescent bench from a slave that acknowledges succeeds exactly if the
master is installed and the address is in range, whether and wherever its slave stalls. The buffer
then holds what the slave holds from the pointer on that the write part leaves, the registers are
those that one such write leaves, and there were at most two start conditions and one pulse. A read
from one register is the case of a single byte to write. -/
theorem writeRead_survives_stall (buffer : List UInt8) (hconfig : m.bus.config = Bench.config)
    {b : Bench} (hb : b.Quiescent) {s : Bench.Slave} (hs : b.slaves.get address = some s)
    (ha : s.acknowledges) (hne : bytes ≠ []) :
    let o := (m.writeRead address bytes buffer).run Bench.respond b
    (o.value.result = .ok () ↔ m.installed = true ∧ address ≤ 0x7f) ∧
      (o.value.result = .ok () →
        Message.buffers o.value.chain = [(s.write bytes).window buffer.length] ∧
        (∃ s' : Bench.Slave, o.state.slaves = b.slaves.set address (some s') ∧
          s'.registers = (s.write bytes).registers) ∧
        o.state.tally.starts ≤ b.tally.starts + 2 ∧
        o.state.tally.pulses ≤ b.tally.pulses + 1 ∧ o.state.Quiescent) ∧
      ∀ register, bytes = [register] →
        (m.read address register buffer).run Bench.respond b = o := by
  intro o
  have hread : ∀ register, bytes = [register] →
      (m.read address register buffer).run Bench.respond b = o := by
    rintro register rfl
    rfl
  by_cases h : m.installed = true ∧ address ≤ 0x7f
  · obtain ⟨answer, b', hends, hreread⟩ :
        ∃ answer b', (m.writeRead address bytes buffer).ends Bench.respond b = (answer, b') ∧
          Bench.Reread b address s bytes buffer answer b' :=
      Bench.reread_of_quiescent h.1 hconfig hb h.2 hs ha hne
    obtain ⟨hvalue, hstate⟩ : o.value = _ ∧ o.state = _ := Program.run_of_ends hends
    rw [hvalue, hstate]
    refine ⟨iff_of_true hreread.result h, fun _ => ?_, hread⟩
    refine ⟨?_, hreread.slaves, hreread.starts, hreread.pulses, hreread.quiescent⟩
    rw [hreread.chain]
    rfl
  · have hrefused : o.value.result ≠ .ok () := by
      refine ends_retrying_refused Bench.respond b ?_ readRetries
      rintro ⟨hm, hvalid⟩
      exact h ⟨hm, hvalid.2 _ List.mem_cons_self⟩
    exact ⟨iff_of_false hrefused h, fun hok => absurd hok hrefused, hread⟩

/-- The slave stalls between the two parts of a register read, which is made a second time. -/
theorem writeRead_survives_stall_on_stallingBench :
    stallingBench.Quiescent ∧
      let o := (benchMaster.read 0x48 16 [0, 0]).run Bench.respond stallingBench
      o.value.result = .ok () ∧ Message.buffers o.value.chain = [[5, 0]] ∧
        o.state.tally.starts ≤ 2 ∧ o.state.tally.pulses ≤ 1 ∧ o.state.Quiescent := by
  obtain ⟨hsucceeds, hanswer, hread⟩ :=
    writeRead_survives_stall (m := benchMaster) [0, 0] rfl quiescent_stallingBench
      get_stallingBench rfl (List.cons_ne_nil 16 [])
  have hok := hsucceeds.mpr ⟨rfl, by decide⟩
  obtain ⟨hbuffers, -, hstarts, hpulses, hquiescent⟩ := hanswer hok
  have hheld : ((Bench.Slave.ofDevice (.stallOnce [(16, 5)] 1)).write [16]).window 2 = [5, 0] := by
    decide +kernel
  refine ⟨quiescent_stallingBench, ?_⟩
  rw [hread 16 rfl]
  exact ⟨hok, hbuffers.trans (congrArg (fun buffer => [buffer]) hheld), hstarts, hpulses,
    hquiescent⟩

end TwoWire.Master
