import TwoWire.Master
import TwoWire.Proofs.BenchPolls
/-!
# Delivery on the bench

A chain on a bench whose slaves all take part: the wait for it ends with the bench at rest, every
word has reached its slave, the bytes of a read have come from it, and the answer says so.
-/
namespace TwoWire
namespace Bench
open Program (ends ends_bind_eq)

variable {bus : Bus} {b : Bench} {t : Transaction}

/-! ## While a write goes on -/

/-- A poll sends the next word. -/
theorem ends_settle_send (hbus : bus.config = config) (hb : Writing b) (ht : t.Running)
    {word : FifoWord} (hn : t.nextWord? = some word) :
    (Session.settle bus 0 t).ends respond b =
      (Session.settle bus 0 (t.sent.advance true)).ends respond
        (b.attended.paced.pushWord word.bits) := by
  obtain ⟨hclean, hroom, hfull, -⟩ := sample_liveBits b
  rw [hb.received] at hfull
  have hlevel : b.levelRaised = true := by
    unfold levelRaised
    rw [hb.mode, hb.master (by rw [hb.mode]; decide), hb.stalled]
    rfl
  have hactive : b.isActive = true := by
    rw [hb.isActive, hb.mode]
    rfl
  have hevent := ends_onEvent_send (b := b.attended) hb.clockOn ht.isInert hclean hroom hfull hn
  have hpoll := ends_poll_serving hbus hb.toServing t
  rw [hlevel, Bool.or_true, if_pos rfl, hevent, hactive] at hpoll
  refine ends_settle_moved (by decide) hpoll rfl ?_
  change (t.sent.advance true).moved ≠ t.moved
  rw [Transaction.moved_advance, Transaction.moved_sent]
  exact Nat.succ_ne_self _

/-- Polls send the words that lie ahead, as long as the bench asks for them. -/
theorem ends_settle_words (hbus : bus.config = config) (words : List FifoWord) {b₀ : Bench}
    {tail : List Stage} (ht : t.Running) (ha : t.ahead = words.map .word ++ tail)
    (hb : Alike b₀ b) (hr : Rung b) (hf : Follows b₀ words) :
    ∃ t' b', (Session.settle bus 0 t).ends respond b =
        (Session.settle bus 0 t').ends respond b' ∧
      t'.Running ∧ t'.ahead = tail ∧ t'.chain = t.chain ∧ Alike (pushAll b₀ words) b' ∧
      Rung b' := by
  induction words generalizing b₀ b t with
  | nil => exact ⟨t, b, rfl, ht, ha, rfl, hb, hr⟩
  | cons word rest ih =>
    obtain ⟨hwriting, hrest⟩ := hf
    have hnow := hwriting.alike hb
    have hready := (Alike.attended hnow.errors).trans (.paced b.attended)
    have hn := ht.nextWord?_eq ha
    obtain ⟨hrunning, hahead⟩ := ht.send hn
    rw [ha] at hahead
    obtain ⟨t', b', hsettle, ht', ha', hchain, halike, hrung⟩ :=
      ih hrunning (List.cons.inj hahead).2.symm ((hb.trans hready).pushWord word.bits)
        (rung_pushWord (hnow.alike hready) word.bits) hrest
    refine ⟨t', b', ?_, ht', ha', ?_, halike, hrung⟩
    · rw [ends_settle_send hbus hnow ht hn, hsettle]
    · rw [hchain, Transaction.chain_advance, Transaction.chain_sent]

/-! ## At rest -/

/-- Nothing has failed and every message has been moved. -/
structure Finished (t : Transaction) (chain : List Message) : Prop where
  fault : t.fault = none
  completed : t.completed = chain.length
  chain : t.chain = chain

/-- The bench is idle with nothing received, and this is what came of it. -/
structure Rested (b : Bench) (slaves : Slaves) (starts pulses : Nat) : Prop extends Serving b where
  mode : b.mode = .idle
  received : b.received = none
  slaves : b.slaves = slaves
  starts : b.tally.starts = starts
  pulses : b.tally.pulses = pulses

theorem Rested.isOpen {slaves : Slaves} {starts pulses : Nat}
    (h : Rested b slaves starts pulses) : Open b where
  toServing := h.toServing
  mode := by rw [h.mode]; decide
  received := h.received

/-- Once the bench is idle and nothing lies ahead, the wait ends with the next poll. -/
theorem ends_settle_rest (hbus : bus.config = config) (hb : Serving b) (hm : b.mode = .idle)
    (hr : b.received = none) (ht : t.Running) (ha : t.ahead = []) (idle : Nat)
    (hi : idle < Session.pollLimit) :
    ∃ t' b', (Session.settle bus idle t).ends respond b = (⟨true, t'⟩, b') ∧
      Finished t' t.chain ∧ Rested b' b.slaves b.tally.starts b.tally.pulses := by
  have hrested : Rested b.attended b.slaves b.tally.starts b.tally.pulses :=
    ⟨hb.alike (.attended hb.errors), hm, hr, rfl, rfl, rfl⟩
  obtain ⟨hclean, hroom, hfull, -⟩ := sample_liveBits b
  rw [hr] at hfull
  obtain ⟨hlast, hposition, hleft⟩ := Transaction.completed_of_ahead_nil ht.fits ha
  have hactive : b.isActive = false := by
    rw [hb.isActive, hm]
    rfl
  have hlevel : b.levelRaised = false := by
    unfold levelRaised
    rw [hm]
    rfl
  have hcompleted := ht.completed_iff.mpr ha
  have hpoll := ends_poll_serving hbus hb t
  rw [hlevel, Bool.or_false, hactive] at hpoll
  by_cases he : b.edge.raised = true
  · have hevent := ends_onEvent_rest (b := b.attended) ht.isInert hclean hroom hfull
      (ht.nextWord?_eq_none ha)
    have hadvance : t.advance false = { t with phase := .transactionComplete } := by
      have hone := ht.turned hposition hleft
      unfold Transaction.advance
      rw [if_pos hposition, if_pos hleft, if_neg (by omega), ht.discardDue]
      rfl
    rw [if_pos he, hevent, hadvance] at hpoll
    exact ⟨_, _, ends_settle_quiet hi hpoll rfl, ⟨ht.fault, hcompleted, rfl⟩, hrested⟩
  · rw [if_neg he] at hpoll
    exact ⟨t, _, ends_settle_quiet hi hpoll rfl, ⟨ht.fault, hcompleted, rfl⟩, hrested⟩

/-! ## While a read goes on -/

variable {slaves : Slaves} {source : UInt8} {s : Slave} {taken more : Nat}

/-- What a poll of a bench sees while a read goes on. -/
theorem ends_poll_reading (hbus : bus.config = config) (hb : Reading b slaves source s taken more)
    (he : b.edge.raised = true) {t' : Transaction} {b' : Bench}
    (h : (t.onEvent ⟨b.liveBits⟩).ends respond b.attended = (t', b')) :
    (Session.poll bus t).ends respond b = (⟨false, t'⟩, b') := by
  have hactive : b.isActive = true := by
    rw [hb.isActive, hb.mode]
    rfl
  rw [ends_poll_serving hbus hb.toServing, he, Bool.true_or, if_pos rfl, h, hactive]
  rfl

/-- A poll stores the byte that is there. -/
theorem ends_settle_store (hbus : bus.config = config) (hb : Reading b slaves source s taken more)
    (he : b.edge.raised = true) (ht : t.Running) (hn : t.nextWord? = none)
    (hs : t.slot? = some taken) {b' : Bench}
    (hstop : (Controller.stopIf (t.stopDue taken)).ends respond b.attended = ((), b'))
    (hb' : Reading b' slaves source s taken more) :
    (Session.settle bus 0 t).ends respond b =
      (Session.settle bus 0 ((t.received taken b'.pullByte.1).advance false)).ends respond
        b'.pullByte.2 := by
  obtain ⟨hclean, hroom, hfull, -⟩ := sample_liveBits b
  rw [hb.received] at hfull
  have hevent := ends_onEvent_store ht.isInert hclean hroom hfull hn hs hstop hb'.clockOn
  have hpoll := ends_poll_reading hbus hb he hevent
  refine ends_settle_moved (by decide) hpoll rfl ?_
  change ((t.received taken b'.pullByte.1).advance false).moved ≠ t.moved
  rw [Transaction.moved_advance]
  exact Nat.succ_ne_self _

/-- The transaction fills the buffer of a last message: its first `taken` bytes are there. -/
structure Filling (before : List Message) (m : Message) (s : Slave) (taken : Nat)
    (t : Transaction) : Prop where
  chain : t.chain = before ++ [m.fill (s.window taken)]
  current : t.current = before.length
  position : t.position = some taken
  length : taken + t.left = m.length
  isRead : m.isRead

namespace Filling

variable {before : List Message} {m : Message}

theorem getElem? (h : Filling before m s taken t) :
    t.chain[t.current]? = some (m.fill (s.window taken)) := by
  rw [h.chain, h.current, List.getElem?_concat_length]

theorem messagesLeft (h : Filling before m s taken t) : t.messagesLeft = 1 := by
  unfold Transaction.messagesLeft
  rw [h.chain, h.current, List.length_append, List.length_singleton]
  omega

theorem next (h : Filling before m s taken t) (hl : 0 < t.left) :
    t.nextWord? = none ∧ t.slot? = some taken := by
  have hread := h.isRead
  constructor
  · rw [Transaction.nextWord?_of_some h.getElem? h.position, if_neg (by omega)]
    obtain ⟨address, payload⟩ := m
    cases payload with
    | write bytes => cases hread
    | read buffer => rfl
  · refine (Transaction.slot?_eq_some_iff h.getElem?).mpr ⟨h.position, ?_, hl⟩
    rw [Message.isRead_fill]
    exact hread

/-- Changing the last element of a list. -/
theorem modify_concat {α : Type} (l : List α) (a : α) (f : α → α) :
    (l ++ [a]).modify l.length f = l ++ [f a] := by
  induction l with
  | nil => rfl
  | cons b rest ih => exact congrArg (b :: ·) ih

/-- Storing the next byte of the slave fills one more place. -/
theorem received (h : Filling before m s taken t) (hl : 0 < t.left) :
    Filling before m s (taken + 1) (t.received taken (s.peek taken)) where
  chain := by
    have hlt : (s.window taken).length < m.length := by
      have := h.length
      rw [Slave.length_window]
      omega
    have hstore := Message.store_fill (s.peek taken) hlt
    rw [Slave.length_window] at hstore
    change t.chain.modify t.current _ = _
    rw [h.chain, h.current, modify_concat, hstore, Slave.window_succ]
  current := h.current
  position := rfl
  length := by
    have := h.length
    change taken + 1 + (t.left - 1) = m.length
    omega
  isRead := h.isRead

/-- The last message stays the current one. -/
theorem advance (h : Filling before m s taken t) (sending : Bool) :
    ∃ phase, t.advance sending = { t with phase := phase } ∧
      Filling before m s taken (t.advance sending) := by
  have hone := h.messagesLeft
  have hsettled : ∃ phase, t.advance sending = { t with phase := phase } := by
    unfold Transaction.advance
    rw [if_pos (by rw [h.position]; rfl)]
    split
    case isFalse => exact ⟨_, rfl⟩
    rw [if_neg (by omega)]
    split
    · exact ⟨_, rfl⟩
    · split
      · exact ⟨_, rfl⟩
      · exact ⟨t.phase, rfl⟩
  obtain ⟨phase, hphase⟩ := hsettled
  refine ⟨phase, hphase, ?_⟩
  rw [hphase]
  exact ⟨h.chain, h.current, h.position, h.length, h.isRead⟩

/-- A buffer that is full holds what was read, whatever it held before. -/
theorem full (h : Filling before m s taken t) (hl : t.left = 0) :
    t.chain = before ++ [.read m.address (s.window m.length)] := by
  have hread := h.isRead
  have hlen := h.length
  rw [hl, Nat.add_zero] at hlen
  rw [h.chain, hlen]
  obtain ⟨address, payload⟩ := m
  cases payload with
  | write bytes => cases hread
  | read buffer =>
    have hfull : buffer.drop (s.window buffer.length).length = [] := by
      rw [Slave.length_window, List.drop_length]
    change before ++ [Message.read address
      (s.window buffer.length ++ buffer.drop (s.window buffer.length).length)] = _
    rw [hfull, List.append_nil]
    rfl

/-- With the buffer full there is nothing to send and no slot. -/
theorem next_of_full (h : Filling before m s taken t) (hl : t.left = 0) :
    t.nextWord? = none ∧ t.slot? = none := by
  constructor
  · rw [Transaction.nextWord?_of_some h.getElem? h.position, if_pos hl]
  · cases hs : t.slot? with
    | none => rfl
    | some position =>
      obtain ⟨-, hpos⟩ := Transaction.slot?_eq_some hs
      omega

/-- With the buffer full nothing lies ahead. -/
theorem ahead_eq_nil (h : Filling before m s taken t) (ht : t.Running) (hl : t.left = 0) :
    t.ahead = [] := by
  rcases ht.next_of_end hl with ⟨word, hword⟩ | ⟨-, hend⟩
  · rw [(h.next_of_full hl).1] at hword
    cases hword
  · exact hend

end Filling

/-- A stop request that may be due, after a poll has looked at a read. -/
theorem ends_stopIf_reading (hb : Reading b slaves source s taken more) (hu : b.readEnd = .unset)
    (due : Bool) :
    ∃ b', (Controller.stopIf due).ends respond b.attended = ((), b') ∧
      Reading b' slaves source s taken more ∧
      b'.readEnd = (if due then .announced else .unset) ∧ b'.edge.raised = false ∧
      b'.tally = b.tally ∧ b'.carried = b.carried := by
  have hattended := hb.alike (.attended hb.errors)
  cases due with
  | true =>
    have hstop : (Controller.stopIf true).ends respond b.attended =
        ((), b.attended.pushWord FifoWord.stop.bits) := ends_stopIf (b := b.attended) hb.clockOn true
    obtain ⟨hstopped, hend, hedge, htally, hcarried⟩ := hattended.stop hu
    exact ⟨_, hstop, hstopped, hend, congrArg Latch.raised hedge, htally, hcarried⟩
  | false => exact ⟨b.attended, rfl, hattended, hu, rfl, rfl, rfl⟩

/-- Until its end is reached a read goes on with the byte that comes in. -/
theorem ends_settle_fetch (hbus : bus.config = config) {before : List Message} {m : Message}
    (hb : Reading b slaves source s taken (more + 1)) (he : b.edge.raised = true)
    (hu : b.readEnd = .unset) (ht : t.Running) (hf : Filling before m s taken t) (hl : 0 < t.left) :
    ∃ b', (Session.settle bus 0 t).ends respond b =
        (Session.settle bus 0 ((t.received taken (s.peek taken)).advance false)).ends respond b' ∧
      Reading b' slaves source s (taken + 1) more ∧ b'.edge.raised = true ∧
      b'.readEnd = (if t.stopDue taken then .reached else .unset) ∧ b'.tally = b.tally ∧
      b'.carried = b.carried + 1 := by
  obtain ⟨hn, hs⟩ := hf.next hl
  obtain ⟨b₁, hstop, hb₁, hend, -, htally, hcarried⟩ := ends_stopIf_reading hb hu (t.stopDue taken)
  obtain ⟨hbyte, hpulled, hend', hedge, htally', hcarried'⟩ := hb₁.pull (by
    rw [hend]
    split <;> exact nofun)
  have hstep := ends_settle_store hbus hb he ht hn hs hstop hb₁
  rw [hbyte] at hstep
  refine ⟨_, hstep, hpulled, hedge, ?_, htally'.trans htally, ?_⟩
  · rw [hend', hend]
    split <;> rfl
  · rw [hcarried', hcarried]

/-- Storing a byte of a longer read. -/
theorem Filling.store {before : List Message} {m : Message} (hf : Filling before m s taken t)
    (ht : t.Running) (hl : 0 < t.left) (hlong : t.left = 1 → taken ≠ 0) :
    let t' := (t.received taken (s.peek taken)).advance false
    t'.Running ∧ Filling before m s (taken + 1) t' ∧ t'.left = t.left - 1 := by
  have hsingle : t.isSingle taken = false := by
    unfold Transaction.isSingle
    rw [decide_eq_false]
    rintro ⟨hone, hzero⟩
    exact hlong hone hzero
  obtain ⟨hrunning, -⟩ := ht.store (s.peek taken) (hf.next hl).2 hsingle
  obtain ⟨phase, hphase, hfilling⟩ := (hf.received hl).advance false
  exact ⟨hrunning, hfilling, by rw [hphase]; rfl⟩

/-- A read of more than one byte ends with its buffer full of what the slave holds. -/
theorem ends_settle_slots (hbus : bus.config = config) {before : List Message} {m : Message}
    {rest : Nat} (hrest : t.left = rest + 1) (hlong : rest = 0 → taken ≠ 0)
    (hb : Reading b slaves source s taken rest) (he : b.edge.raised = true)
    (hend : b.readEnd = if rest = 0 then .reached else .unset) (ht : t.Running)
    (hf : Filling before m s taken t) :
    ∃ t' b', (Session.settle bus 0 t).ends respond b = (⟨true, t'⟩, b') ∧
      Finished t' (before ++ [.read m.address (s.window m.length)]) ∧
      Rested b' (slaves.set source (some (s.skip m.length))) b.tally.starts b.tally.pulses := by
  have hl : 0 < t.left := by omega
  obtain ⟨hrunning, hfilling, hleft⟩ := hf.store ht hl fun hone => hlong (by omega)
  induction rest generalizing b t taken with
  | zero =>
    obtain ⟨hn, hs⟩ := hf.next hl
    have hattended := hb.alike (.attended hb.errors)
    obtain ⟨hbyte, hended⟩ := hattended.pull_last hend
    have hdue : t.stopDue taken = false := by
      unfold Transaction.stopDue Transaction.isSingle
      rw [decide_eq_false fun h => hlong rfl h.2, decide_eq_false (by omega)]
      rfl
    have hstop := ends_stopIf (b := b.attended) hb.clockOn (t.stopDue taken)
    rw [hdue, if_neg Bool.false_ne_true] at hstop
    have hstep := ends_settle_store hbus hb he ht hn hs (by rw [hdue]; exact hstop) hattended
    rw [hbyte] at hstep
    rw [hrest] at hleft
    have hahead := hfilling.ahead_eq_nil hrunning hleft
    obtain ⟨t', b', hsettle, hfinished, hrested⟩ :=
      ends_settle_rest hbus hended.serving hended.mode hended.received hrunning hahead
        0 (by decide)
    refine ⟨t', b', hstep.trans hsettle, ?_, ?_⟩
    · rw [hfilling.full hleft] at hfinished
      exact hfinished
    · have hlength := hf.length
      rw [hrest] at hlength
      rw [hended.slaves, hended.tally] at hrested
      rw [← hlength, Nat.zero_add, ← hb.slaves]
      exact hrested
  | succ rest ih =>
    obtain ⟨b', hstep, hb', he', hend', htally, -⟩ := ends_settle_fetch hbus hb he hend ht hf hl
    rw [hrest] at hleft
    have hnext : b'.readEnd = if rest = 0 then .reached else .unset := by
      have hdue : t.stopDue taken = decide (rest = 0) := by
        unfold Transaction.stopDue Transaction.isSingle
        rw [decide_eq_false (by omega), Bool.false_or, decide_eq_decide]
        omega
      rw [hend', hdue]
      simp only [decide_eq_true_eq]
    obtain ⟨hrunning', hfilling', hleft'⟩ :=
      hfilling.store hrunning (by omega) fun _ => Nat.succ_ne_zero _
    obtain ⟨t'', b'', hsettle, hfinished, hrested⟩ :=
      ih hleft (fun _ => Nat.succ_ne_zero _) hb' he' hnext hrunning hfilling (by omega) hrunning'
        hfilling' hleft'
    rw [htally] at hrested
    exact ⟨t'', b'', hstep.trans hsettle, hfinished, hrested⟩

/-- A poll throws away the byte beyond a read that has reached its end. -/
theorem ends_settle_discard (hbus : bus.config = config)
    (hb : Reading b slaves source s taken more)
    (he : b.edge.raised = true) (hend : b.readEnd = .reached) (ht : t.Owing)
    (hn : t.nextWord? = none) (hs : t.slot? = none) :
    ∃ b', (Session.settle bus 0 t).ends respond b =
        (Session.settle bus 1 (t.discarded.advance false)).ends respond b' ∧
      Ended b b' := by
  obtain ⟨hclean, hroom, hfull, -⟩ := sample_liveBits b
  rw [hb.received] at hfull
  have hattended := hb.alike (.attended hb.errors)
  have hevent := ends_onEvent_discard (b := b.attended) hb.clockOn ht.isInert hclean hroom hfull hn
    hs ht.unrequested
  have hpoll := ends_poll_reading hbus hb he hevent
  obtain ⟨-, hended⟩ := hattended.pull_last hend
  refine ⟨b.attended.pullByte.2, ends_settle_still (by decide) hpoll rfl ?_, ?_⟩
  · change (t.discarded.advance false).moved = t.moved
    rw [Transaction.moved_advance, Transaction.moved_discarded]
  · exact ⟨hended.serving, hended.mode, hended.received, hended.slaves, hended.tally⟩

/-- Storing the only byte of a read fills its buffer, and one byte is still to be thrown away. -/
theorem Filling.single {before : List Message} {m : Message} (hf : Filling before m s 0 t)
    (ht : t.Running) (hone : t.left = 1) :
    let t' := (t.received 0 (s.peek 0)).advance false
    t'.Owing ∧ Filling before m s 1 t' ∧ t'.left = 0 := by
  intro t'
  have hl : 0 < t.left := by omega
  have hsingle : t.isSingle 0 = true := decide_eq_true ⟨hone, rfl⟩
  obtain ⟨phase, hphase, hfilling⟩ := (hf.received hl).advance false
  refine ⟨ht.owe _ (hf.next hl).2 hsingle, hfilling, ?_⟩
  change ((t.received 0 (s.peek 0)).advance false).left = 0
  rw [hphase]
  change t.left - 1 = 0
  omega

/-- Throwing a byte away changes nothing in the buffer. -/
theorem Filling.discarded {before : List Message} {m : Message} (hf : Filling before m s taken t)
    (ht : t.Owing) :
    let t' := t.discarded.advance false
    Filling before m s taken t' ∧ t'.left = t.left := by
  have hfilling : Filling before m s taken t.discarded := by
    rw [ht.discarded_eq]
    exact ⟨hf.chain, hf.current, hf.position, hf.length, hf.isRead⟩
  obtain ⟨phase, hphase, hadvanced⟩ := hfilling.advance false
  refine ⟨hadvanced, ?_⟩
  rw [hphase, ht.discarded_eq]

/-- A read of a single byte takes another one, which is thrown away. -/
theorem ends_settle_single (hbus : bus.config = config) {before : List Message} {m : Message}
    (hone : t.left = 1) (hb : Reading b slaves source s 0 1) (he : b.edge.raised = true)
    (hend : b.readEnd = .unset) (ht : t.Running) (hf : Filling before m s 0 t) :
    ∃ t' b', (Session.settle bus 0 t).ends respond b = (⟨true, t'⟩, b') ∧
      Finished t' (before ++ [.read m.address (s.window m.length)]) ∧
      Rested b' (slaves.set source (some (s.skip 2))) b.tally.starts b.tally.pulses := by
  have hdue : t.stopDue 0 = true := by
    unfold Transaction.stopDue
    rw [show t.isSingle 0 = true from decide_eq_true ⟨hone, rfl⟩, Bool.true_or]
  -- the byte is stored and the stop requested
  obtain ⟨b₁, hfetch, hb₁, he₁, hend₁, htally₁, -⟩ :=
    ends_settle_fetch hbus hb he hend ht hf (by omega)
  rw [hdue, if_pos rfl] at hend₁
  obtain ⟨howing, hfilling, hleft⟩ := hf.single ht hone
  -- the byte that came in before the stop took effect is thrown away
  obtain ⟨hnext, hslot⟩ := hfilling.next_of_full hleft
  obtain ⟨b₂, hdiscard, hended⟩ := ends_settle_discard hbus hb₁ he₁ hend₁ howing hnext hslot
  obtain ⟨hfilling', hleft'⟩ := hfilling.discarded howing
  rw [hleft] at hleft'
  have hrunning := howing.running.advance false
  have hahead := hfilling'.ahead_eq_nil hrunning hleft'
  obtain ⟨t', b', hrest, hfinished, hrested⟩ :=
    ends_settle_rest hbus hended.serving hended.mode hended.received hrunning hahead 1 (by decide)
  refine ⟨t', b', hfetch.trans (hdiscard.trans hrest), ?_, ?_⟩
  · rw [hfilling'.full hleft'] at hfinished
    exact hfinished
  · rw [hended.slaves, hended.tally, htally₁, hb₁.slaves] at hrested
    exact hrested

/-! ## Whole chains -/

/-- A running transaction before the first slot of a last message starts to fill its buffer. -/
theorem filling_of_ahead {before : List Message} {m : Message} (ht : t.Running)
    (hchain : t.chain = before ++ [m]) (ha : t.ahead = m.slots before.length) (hm : m.isRead)
    (hl : 0 < m.length) (s : Slave) : Filling before m s 0 t ∧ t.left = m.length := by
  have hslots : ∃ rest, m.slots before.length = .slot before.length 0 :: rest := by
    obtain ⟨address, payload⟩ := m
    cases payload with
    | write bytes => cases hm
    | read buffer =>
      cases buffer with
      | nil => cases hl
      | cons byte rest =>
        refine ⟨((List.range rest.length).map Nat.succ).map (.slot before.length), ?_⟩
        change (List.range (rest.length + 1)).map _ = _
        rw [List.range_succ_eq_map, List.map_cons]
  obtain ⟨rest, hrest⟩ := hslots
  rw [hrest] at ha
  obtain ⟨-, hs⟩ := ht.slot?_eq ha
  have hahead := Transaction.ahead_received 0 ht.fits hs
  rw [ha] at hahead
  have hcurrent : t.current = before.length :=
    (Stage.slot.inj (List.cons.inj hahead).1).1.symm
  obtain ⟨hposition, -⟩ := Transaction.slot?_eq_some hs
  obtain ⟨m', hm', hlen⟩ := ht.fits
  rw [hchain, hcurrent, List.getElem?_concat_length] at hm'
  cases hm'
  rw [hposition, Option.getD_some, Nat.zero_add] at hlen
  refine ⟨⟨?_, hcurrent, hposition, ?_, hm⟩, hlen⟩
  · rw [hchain]
    change _ = before ++ [m.fill []]
    rw [Message.fill_nil]
  · rw [Nat.zero_add, hlen]

theorem answer_of_read {m : Message} (hm : m.isRead) (hs : slaves.get m.address = some s) :
    Slaves.answer slaves m = .read m.address (s.window m.length) ∧
      Slaves.afterMessage slaves m =
        slaves.set m.address (some (s.skip (Slaves.fetched m.length))) := by
  obtain ⟨address, payload⟩ := m
  cases payload with
  | write bytes => cases hm
  | read buffer =>
    constructor
    · change Message.read address ((slaves.get address).elim buffer _) = _
      rw [hs]
      rfl
    · change slaves.set address ((slaves.get address).map _) = _
      rw [hs]
      rfl

theorem answer_of_no_slots (slaves : Slaves) {m : Message} (h : ¬ (m.isRead ∧ 0 < m.length))
    (j : Nat) :
    m.slots j = [] ∧ Slaves.answer slaves m = m := by
  obtain ⟨address, payload⟩ := m
  cases payload with
  | write bytes => exact ⟨rfl, rfl⟩
  | read buffer =>
    cases buffer with
    | cons byte rest => exact absurd ⟨rfl, Nat.succ_pos _⟩ h
    | nil =>
      refine ⟨rfl, ?_⟩
      change Message.read address ((slaves.get address).elim [] fun s => s.window 0) = _
      cases slaves.get address <;> rfl

/-- Once all words are out, the wait ends with the last message answered. -/
theorem ends_settle_arrived (hbus : bus.config = config) {before : List Message} {m : Message}
    {b₀ : Bench} {starts pulses : Nat} (harrived : Arrived b₀ slaves m starts pulses)
    (halike : Alike b₀ b) (hrung : Rung b) (ht : t.Running) (hchain : t.chain = before ++ [m])
    (ha : t.ahead = m.slots before.length) :
    ∃ t' b', (Session.settle bus 0 t).ends respond b = (⟨true, t'⟩, b') ∧
      Finished t' (before ++ [Slaves.answer slaves m]) ∧
      Rested b' (Slaves.afterMessage slaves m) starts pulses := by
  have hstarts : b.tally.starts = starts := halike.starts.trans harrived.starts
  have hpulses : b.tally.pulses = pulses := halike.pulses.trans harrived.pulses
  by_cases hread : m.isRead ∧ 0 < m.length
  · obtain ⟨hm, hl⟩ := hread
    obtain ⟨s, hget, hreading₀, hend₀⟩ := harrived.reads hm hl
    obtain ⟨hanswer, hafter⟩ := answer_of_read hm hget
    have hreading := hreading₀.alike halike
    have hedge := hrung hreading.stalled
    have hend : b.readEnd = .unset := halike.readEnd.trans hend₀
    obtain ⟨hfilling, hleft⟩ := filling_of_ahead ht hchain ha hm hl s
    rw [hanswer, hafter, ← hstarts, ← hpulses]
    by_cases hone : m.length = 1
    · rw [Slaves.fetched, if_pos hone] at hreading
      have hsingle := ends_settle_single hbus (hleft.trans hone) hreading hedge hend ht hfilling
      rw [Slaves.fetched, if_pos hone]
      exact hsingle
    · rw [Slaves.fetched, if_neg hone] at hreading ⊢
      refine ends_settle_slots hbus (show t.left = m.length - 1 + 1 by omega) (fun h => ?_)
        hreading hedge ?_ ht hfilling
      · omega
      · rw [if_neg (by omega), hend]
  · obtain ⟨hserving₀, hmode₀, hreceived₀, hslaves₀⟩ := harrived.ended hread
    obtain ⟨hslots, hanswer⟩ := answer_of_no_slots slaves hread before.length
    have hserving := hserving₀.alike halike
    have hmode : b.mode = .idle := halike.mode.trans hmode₀
    have hreceived : b.received = none := halike.received.trans hreceived₀
    have hslaves : b.slaves = Slaves.afterMessage slaves m := halike.slaves.trans hslaves₀
    rw [hslots] at ha
    obtain ⟨t', b', hsettle, hfinished, hrested⟩ :=
      ends_settle_rest hbus hserving hmode hreceived ht ha 0 (by decide)
    rw [hchain] at hfinished
    rw [hslaves, hstarts, hpulses] at hrested
    rw [hanswer]
    exact ⟨t', b', hsettle, hfinished, hrested⟩

/-- The first word of a chain is an address. -/
theorem rung_firstWord (hs : b.stalled = false) {chain : List Message} (hne : chain ≠ [])
    (haddress : ∀ w ∈ chain, w.address ≤ 0x7f) {word : FifoWord}
    (hn : (Transaction.start chain).nextWord? = some word) : Rung (b.pushWord word.bits) := by
  obtain ⟨first, others, rfl⟩ := List.exists_cons_of_ne_nil hne
  have hget : (Transaction.start (first :: others)).chain[0]? = some first := rfl
  rw [Transaction.nextWord?_of_none hget rfl] at hn
  rw [← Option.some.inj hn]
  exact rung_addressWord hs (haddress first List.mem_cons_self) _

/-- The words at the head of a chain go out if the bench asks for them, and the session then waits
for the rest. -/
theorem ends_carry_leading (hbus : bus.config = config) (h : Open b) {chain : List Message}
    (hvalid : Message.Valid chain) {word : FifoWord} {rest : List FifoWord} {tail : List Stage}
    (hahead : (Transaction.start chain).ahead = (word :: rest).map .word ++ tail)
    (hfollows : Follows (b.pushWord word.bits) rest) :
    ∃ t b', t.Running ∧ t.chain = chain ∧ t.ahead = tail ∧ Alike (pushAll b (word :: rest)) b' ∧
      Rung b' ∧
      ∀ {watched b''}, (Session.settle bus 0 t).ends respond b' = (watched, b'') →
        (Session.carry bus chain).ends respond b =
          (if watched.quiet then Session.conclude bus watched.transaction
            else Session.abandon bus watched.transaction).ends respond b'' := by
  have hrunning := Transaction.running_start hvalid.1
  have hn := hrunning.nextWord?_eq hahead
  obtain ⟨hsent, hsend⟩ := hrunning.send hn
  rw [hahead] at hsend
  have hfirst := rung_firstWord (h.toServing.alike (.paced b)).stalled hvalid.1 hvalid.2 hn
  obtain ⟨t, b', hsettle, ht, ha, hchain, halike, hrung⟩ :=
    ends_settle_words hbus rest hsent (List.cons.inj hsend).2.symm
      ((Alike.paced b).pushWord word.bits) hfirst hfollows
  rw [Transaction.chain_advance, Transaction.chain_sent] at hchain
  refine ⟨t, b', ht, hchain, ha, halike, hrung, fun hend => ?_⟩
  exact ends_carry h.toServing h.received hvalid.1 hn (hsettle.trans hend)

/-- If only the last message of a chain may be a read, all its words go out before the wait for
bytes. -/
theorem ends_carry_words (hbus : bus.config = config) (h : Open b) {before : List Message}
    {m : Message} (hw : ∀ w ∈ before, w.isRead = false)
    (haddress : ∀ w ∈ before ++ [m], w.address ≤ 0x7f) {word : FifoWord} {rest : List FifoWord}
    (hframe : Message.frame (before ++ [m]) = word :: rest)
    (hfollows : Follows (b.pushWord word.bits) rest) :
    ∃ t b', t.Running ∧ t.chain = before ++ [m] ∧ t.ahead = m.slots before.length ∧
      Alike (pushAll b (word :: rest)) b' ∧ Rung b' ∧
      ∀ {watched b''}, (Session.settle bus 0 t).ends respond b' = (watched, b'') →
        (Session.carry bus (before ++ [m])).ends respond b =
          (if watched.quiet then Session.conclude bus watched.transaction
            else Session.abandon bus watched.transaction).ends respond b'' := by
  have hahead := Transaction.ahead_start (before ++ [m])
  rw [Message.itinerary_concat 0 before m hw, hframe, Nat.zero_add] at hahead
  exact ends_carry_leading hbus h ⟨by simp, haddress⟩ hahead hfollows

/-- A chain whose words a bench asks for is carried out in full. -/
theorem ends_carry_arrived (hbus : bus.config = config) (h : Open b) {before : List Message}
    {m : Message} (hw : ∀ w ∈ before, w.isRead = false)
    (haddress : ∀ w ∈ before ++ [m], w.address ≤ 0x7f) {word : FifoWord} {rest : List FifoWord}
    (hframe : Message.frame (before ++ [m]) = word :: rest)
    (hfollows : Follows (b.pushWord word.bits) rest) {starts pulses : Nat}
    (harrived : Arrived (pushAll b (word :: rest)) slaves m starts pulses) :
    ∃ b', (Session.carry bus (before ++ [m])).ends respond b =
        (⟨.ok (before ++ [m]).length, before ++ [Slaves.answer slaves m]⟩, b') ∧
      Rested b' (Slaves.afterMessage slaves m) starts pulses := by
  obtain ⟨t, b', ht, hchain, hahead, halike, hrung, hcarry⟩ :=
    ends_carry_words hbus h hw haddress hframe hfollows
  obtain ⟨t', b'', hend, hfinished, hrested⟩ :=
    ends_settle_arrived hbus harrived halike hrung ht hchain hahead
  refine ⟨b'', ?_, hrested⟩
  rw [hcarry hend, if_pos rfl, ends_conclude respond b'' bus hfinished.fault,
    hfinished.completed, hfinished.chain, List.length_append, List.length_append]
  rfl

/-- A chain that is served by all its slaves is carried out in full. -/
theorem ends_carry_served (hbus : bus.config = config) (h : Open b) {chain : List Message}
    (hvalid : Message.Valid chain) (hw : ∀ w ∈ chain.dropLast, w.isRead = false)
    (hs : ∀ w ∈ chain, Slaves.Serve b.slaves w) :
    ∃ b', (Session.carry bus chain).ends respond b =
        (⟨.ok chain.length, Slaves.answers b.slaves chain⟩, b') ∧
      Rested b' (Slaves.replay b.slaves chain) b.begun b.tally.pulses := by
  obtain rfl | ⟨before, m, rfl⟩ := List.eq_nil_or_concat chain
  · exact absurd rfl hvalid.1
  rw [List.concat_eq_append] at hvalid hw hs ⊢
  rw [List.dropLast_concat] at hw
  obtain ⟨⟨word, rest, hframe, hfollows⟩, harrived⟩ := arrived_of_frame h before m hw hs
  rw [hframe] at harrived
  obtain ⟨b', hcarry, hrested⟩ :=
    ends_carry_arrived hbus h hw hvalid.2 hframe hfollows harrived
  rw [Slaves.answers_concat _ _ m hw, Slaves.replay_append]
  exact ⟨b', hcarry, hrested⟩

/-- A bench at rest is quiescent when its session is over. -/
theorem Rested.closed {starts pulses : Nat} (h : Rested b slaves starts pulses) :
    Quiescent b.closed ∧ b.closed.slaves = slaves ∧ b.closed.tally.starts = starts ∧
      b.closed.tally.pulses = pulses := by
  refine ⟨?_, h.slaves, h.starts, h.pulses⟩
  constructor
  case toCoherent =>
    refine ⟨fun hm => absurd h.mode hm, fun hs => ?_⟩
    exact absurd (h.stalled.symm.trans hs) Bool.false_ne_true
  case mode => exact h.mode
  case busActive =>
    change b.busActive = false
    rw [h.busActive, h.mode]
    rfl
  case heldPulses => exact h.heldPulses
  case errors => exact h.errors
  case edge => rfl
  case received => exact h.received

/-- A call on a quiescent bench whose transaction leaves it at rest leaves it quiescent. -/
theorem ends_transact_rested {m : Master} (hm : m.installed = true) (hbus : m.bus.config = config)
    (hb : Quiescent b) {chain : List Message} (hchain : Message.Valid chain)
    {answer : Answer Nat} {b' : Bench} {pulses : Nat}
    (hcarry : (Session.carry m.bus chain).ends respond b.opened.attended = (answer, b'))
    (hrested : Rested b' slaves b.opened.attended.begun pulses) :
    ∃ b', (m.transact chain).ends respond b = (answer, b') ∧ Quiescent b' ∧ b'.slaves = slaves ∧
      b'.tally.starts = b.tally.starts + 1 ∧ b'.tally.pulses = pulses := by
  have hbegun : b.opened.attended.begun = b.tally.starts + 1 := if_pos hb.mode
  rw [hbegun] at hrested
  exact ⟨b'.closed, ends_transact hm hbus hb hchain hcarry, hrested.closed⟩

theorem Quiescent.attended (h : Quiescent b) : Open b.opened.attended where
  toServing := h.opened.toServing.alike (.attended h.errors)
  mode := h.opened.mode
  received := h.opened.received

end Bench

/-- On a quiescent bench whose addressed slaves all acknowledge and have no stall pending, a valid
chain in which no message but the last one is a read goes through in full, with a single start
condition. The slaves are left as the messages one after another leave a register file, and the read
comes back with what its slave held. -/
theorem transact_replays {m : Master} (hm : m.installed = true)
    (hconfig : m.bus.config = Bench.config) {b : Bench} (hb : b.Quiescent) {chain : List Message}
    (hvalid : Message.Valid chain) (hreads : ∀ w ∈ chain.dropLast, w.isRead = false)
    (hslaves : ∀ w ∈ chain, ∃ s : Bench.Slave,
      b.slaves.get w.address = some s ∧ s.acknowledges ∧ s.stallAfter = none) :
    let o := (m.transact chain).run Bench.respond b
    o.value = ⟨.ok chain.length, Bench.Slaves.answers b.slaves chain⟩ ∧
      o.state.slaves = Bench.Slaves.replay b.slaves chain ∧
      o.state.tally.starts = b.tally.starts + 1 ∧
      o.state.tally.pulses = b.tally.pulses ∧ o.state.Quiescent := by
  intro o
  have hserve : ∀ w ∈ chain, Bench.Slaves.Serve b.slaves w :=
    fun w hw => ⟨hvalid.2 w hw, hslaves w hw⟩
  obtain ⟨b₁, hcarry, hrested⟩ :=
    Bench.ends_carry_served hconfig hb.attended hvalid hreads hserve
  obtain ⟨b', hends, hquiescent, hstate, hstarts, hpulses⟩ :=
    Bench.ends_transact_rested hm hconfig hb hvalid hcarry hrested
  obtain ⟨hvalue, hlast⟩ : o.value = _ ∧ o.state = _ := Program.run_of_ends hends
  rw [hvalue, hlast]
  exact ⟨rfl, hstate, hstarts, hpulses, hquiescent⟩

/-- An installed master that has a bench for its bus. -/
def benchMaster : Master := ⟨⟨Bench.config, .silent⟩, true⟩

/-- A bench with one register file. -/
def registerBench : Bench := ({} : Bench).attach 0x48 (.registers [(16, 5)])

/-- A register is written, and read back after repeated starts. -/
def rereadChain : List Message := [.write 0x48 [16, 7], .write 0x48 [16], .read 0x48 [0]]

theorem transact_replays_on_registerBench :
    registerBench.Quiescent ∧ Message.Valid rereadChain ∧
      let o := (benchMaster.transact rereadChain).run Bench.respond registerBench
      o.value.result = .ok 3 ∧ Message.buffers o.value.chain = [[7]] ∧ o.state.tally.starts = 1 ∧
        o.state.Quiescent := by
  have hb : registerBench.Quiescent :=
    ⟨Bench.coherent_empty.attach _ _, rfl, rfl, rfl, rfl, rfl, rfl⟩
  have hget : registerBench.slaves.get 0x48 = some (.ofDevice (.registers [(16, 5)])) :=
    ByteTable.get_set_self _ _ _
  have haddress : ∀ w ∈ rereadChain, w.address = 0x48 := by decide
  have hvalid : Message.Valid rereadChain := by decide
  have hreads : ∀ w ∈ rereadChain.dropLast, w.isRead = false := by decide
  obtain ⟨hvalue, -, hstarts, -, hrest⟩ :=
    transact_replays (m := benchMaster) rfl rfl hb hvalid hreads fun w hw => by
      rw [haddress w hw]
      exact ⟨_, hget, rfl, rfl⟩
  have hbuffers :
      Message.buffers (Bench.Slaves.answers registerBench.slaves rereadChain) = [[7]] := by
    decide +kernel
  refine ⟨hb, hvalid, congrArg Answer.result hvalue, ?_, hstarts, hrest⟩
  rw [hvalue]
  exact hbuffers

end TwoWire
