import TwoWire.Proofs.Retries
import TwoWire.Proofs.StaleBytes
import TwoWire.Proofs.StopRequests
import TwoWire.Proofs.Unrequested
import TwoWire.Proofs.WellFormed
/-!
# The closing read of a chain

A chain of writes may be closed by a read. If its transaction comes to its end and nothing unrequested
was received, then its whole traffic is known but for the bytes themselves: the frame of the chain,
and then the bytes of the read with one bare stop request among them, two bytes before the end. A read
of a single byte takes one byte more, so that two bytes follow the request there, too.
-/
namespace TwoWire

/-- The traffic of a closing read of `n` bytes that has come as far as these bytes: the stop is asked
for before the last byte but one of them, or before the only one. -/
def closing (n : Nat) (bytes : List UInt8) : List Beat :=
  (bytes.take (n - 2)).map .pulled ++ Controller.stopBeats (decide (n - 2 < bytes.length)) ++
    (bytes.drop (n - 2)).map .pulled

@[simp] theorem closing_nil (n : Nat) : closing n [] = [] := by
  simp [closing, Controller.stopBeats]

/-- One byte more, with the stop request before it if it is due now. -/
theorem closing_concat (n : Nat) (bytes : List UInt8) (byte : UInt8) :
    closing n (bytes ++ [byte]) =
      closing n bytes ++ (Controller.stopBeats (decide (bytes.length = n - 2)) ++ [.pulled byte]) := by
  unfold closing
  rcases Nat.lt_trichotomy bytes.length (n - 2) with hbefore | hat | hafter
  · have hle := Nat.le_of_lt hbefore
    have hshort : (bytes ++ [byte]).length ≤ n - 2 := by
      rw [List.length_append, List.length_singleton]
      exact hbefore
    have hno : ¬ n - 2 < (bytes ++ [byte]).length := Nat.not_lt.mpr hshort
    rw [List.take_of_length_le hshort, List.drop_eq_nil_of_le hshort,
      List.take_of_length_le hle, List.drop_eq_nil_of_le hle, decide_eq_false hno,
      decide_eq_false (Nat.not_lt.mpr hle), decide_eq_false (Nat.ne_of_lt hbefore)]
    simp [Controller.stopBeats]
  · have hmore : n - 2 < (bytes ++ [byte]).length := by
      rw [List.length_append, List.length_singleton, hat]
      exact Nat.lt_succ_self _
    have hno : ¬ n - 2 < bytes.length := Nat.not_lt.mpr (Nat.le_of_eq hat)
    rw [decide_eq_true hmore, decide_eq_true hat, decide_eq_false hno, ← hat, List.take_left,
      List.drop_left, List.take_length, List.drop_length]
    simp [Controller.stopBeats]
  · have hle := Nat.le_of_lt hafter
    have hmore : n - 2 < (bytes ++ [byte]).length := by
      rw [List.length_append]
      exact Nat.lt_add_right _ hafter
    rw [decide_eq_true hmore, decide_eq_true hafter, decide_eq_false (Nat.ne_of_gt hafter),
      List.take_append_of_le_length hle, List.drop_append_of_le_length hle]
    simp [Controller.stopBeats]

theorem filterMap_paced?_closing (n : Nat) (bytes : List UInt8) :
    (closing n bytes).filterMap Beat.paced? = [] := by
  have hpulled : ∀ l : List UInt8, (l.map Beat.pulled).filterMap Beat.paced? = [] := fun l => by
    simp [List.filterMap_map, Function.comp_def, Beat.paced?]
  unfold closing Controller.stopBeats
  rw [List.filterMap_append, List.filterMap_append, hpulled, hpulled]
  split <;> rfl

namespace Message

/-- A write keeps its bytes, whatever is received. -/
theorem fill_of_write {m : Message} (h : m.isRead = false) (received : List UInt8) :
    m.fill received = m := by
  obtain ⟨address, payload⟩ := m
  cases payload with
  | write bytes => rfl
  | read buffer => cases h

end Message

/-- Of a chain of writes and a closing read only the buffer of the read changes. -/
theorem filled_closing {writes : List Message} {address : UInt8} {buffer : List UInt8}
    {moves : List Move} (hw : ∀ w ∈ writes, w.isRead = false)
    (hfull : (storedIn writes.length moves).length = buffer.length) :
    filled (writes ++ [.read address buffer]) moves =
      writes ++ [.read address (storedIn writes.length moves)] := by
  have hsame : writes.mapIdx (fun j m => m.fill (storedIn j moves)) = writes := by
    refine List.ext_getElem (by simp) fun j hj hj' => ?_
    rw [List.getElem_mapIdx, Message.fill_of_write (hw _ (List.getElem_mem hj'))]
  rw [filled, List.mapIdx_append, hsame]
  simp [Message.fill, Message.read, Payload.fill, hfull]

/-- A stop request stores nothing. -/
theorem storedIn_of_stopBeats {moves : List Move} {due : Bool}
    (h : moves.map Move.beat = Controller.stopBeats due) (j : Nat) : storedIn j moves = [] := by
  refine List.filterMap_eq_nil_iff.mpr fun move hmove => ?_
  have hbeat : move.beat ∈ Controller.stopBeats due := h ▸ List.mem_map_of_mem hmove
  cases move with
  | store _ _ _ => cases due <;> simp [Controller.stopBeats, Move.beat] at hbeat
  | _ => rfl

namespace Transaction
open Program

/-! ## The byte that is due -/

/-- The moves of a chain of writes that a read closes, as long as nothing unrequested has come in:
words, and then the bytes of the read, with the byte beyond a single one if it has been thrown away. -/
structure Closing (writes : List Message) (address : UInt8) (buffer : List UInt8)
    (moves : List Move) (t : Transaction) : Prop
    extends Ledger (writes ++ [.read address buffer]) moves t where
  course : ∃ (words : List UInt32) (bytes : List UInt8),
    moves.map Move.beat = words.map .paced ++ closing buffer.length bytes ∧
    storedIn writes.length moves = bytes.take buffer.length ∧
    bytes.length ≤ max buffer.length 2 ∧
    t.discardDue = decide (buffer.length = 1 ∧ bytes.length = 1)

variable {writes : List Message} {address : UInt8} {buffer : List UInt8} {moves : List Move}
  {t : Transaction}

namespace Closing

/-- The bytes stored are those of the last message. -/
theorem stored_last (h : Closing writes address buffer moves t) :
    (storedIn writes.length moves).length = t.dataMoved writes.length buffer.length := by
  have hlast : (writes ++ [Message.read address buffer])[writes.length]? =
      some (.read address buffer) := List.getElem?_concat_length
  exact h.stored writes.length _ hlast rfl

/-- A read in a chain of writes that a read closes is the closing one. -/
theorem current_of_isRead (hw : ∀ w ∈ writes, w.isRead = false)
    (h : Closing writes address buffer moves t) {m : Message}
    (hm : t.chain[t.current]? = some m) (hr : m.isRead) :
    t.current = writes.length ∧ m.length = buffer.length := by
  obtain ⟨first, hfirst, hfill, hl⟩ := h.current
  obtain rfl : m = first.fill (storedIn t.current moves) := Option.some.inj (hm.symm.trans hfill)
  rw [Message.isRead_fill] at hr
  have hlength : (first.fill (storedIn t.current moves)).length = first.length := by
    have hget := congrArg (fun lengths : List Nat => lengths[t.current]?) h.lengths
    simpa only [List.getElem?_map, hm, hfirst, Option.map_some, Option.some.injEq] using hget
  rcases Nat.lt_or_ge t.current writes.length with hlt | hge
  · rw [List.getElem?_append_left hlt] at hfirst
    have hwrite := hw first (List.mem_of_getElem? hfirst)
    rw [hr] at hwrite
    cases hwrite
  · obtain ⟨hbound, -⟩ := List.getElem?_eq_some_iff.mp hfirst
    rw [List.length_append, List.length_singleton] at hbound
    have hat : t.current = writes.length := by omega
    rw [hat, List.getElem?_concat_length] at hfirst
    rw [hlength, ← Option.some.inj hfirst]
    exact ⟨hat, rfl⟩

/-- A word goes out only before the first byte of the closing read. -/
theorem dataMoved_of_nextWord? {word : FifoWord} (hword : t.nextWord? = some word)
    (h : Closing writes address buffer moves t) : t.dataMoved writes.length buffer.length = 0 := by
  obtain ⟨m, hm, hfill, -⟩ := h.toLedger.current
  obtain ⟨hbound, -⟩ := List.getElem?_eq_some_iff.mp hm
  rw [List.length_append, List.length_singleton] at hbound
  unfold dataMoved
  rw [if_neg (by omega)]
  split
  case isFalse => rfl
  rename_i hat
  cases hp : t.position with
  | none => rfl
  | some position =>
    rw [← hat, List.getElem?_concat_length] at hm
    cases hm
    rw [nextWord?_of_read hfill rfl hp] at hword
    cases hword

/-- All words go out before the first byte is stored. -/
theorem send {word : FifoWord} (hb : buffer ≠ []) (hword : t.nextWord? = some word)
    (h : Closing writes address buffer moves t) :
    Closing writes address buffer (moves ++ [.send word]) t.sent where
  toLedger := h.toLedger.send hword
  course := by
    obtain ⟨words, bytes, hbeats, hstored, -, hdue⟩ := h.course
    have hpos := List.length_pos_iff.mpr hb
    have hcount := h.stored_last
    rw [hstored, List.length_take, h.dataMoved_of_nextWord? hword] at hcount
    obtain rfl : bytes = [] := List.length_eq_zero_iff.mp (by omega)
    refine ⟨words ++ [word.bits], [], ?_, ?_, Nat.zero_le _, ?_⟩
    · rw [List.map_append, hbeats]
      simp [Move.beat]
    · rw [storedIn_append, storedIn_of_none rfl, List.append_nil, hstored]
    · rw [discardDue_sent, hdue]

/-- The closing read stores its next byte, and asks for the stop where `closing` has it. -/
theorem store {position : Nat} (hw : ∀ w ∈ writes, w.isRead = false) (byte : UInt8)
    (hslot : t.slot? = some position) (h : Closing writes address buffer moves t) :
    ∃ more, more.map Move.beat = Controller.stopBeats (t.stopDue position) ++ [.pulled byte] ∧
      Closing writes address buffer (moves ++ more) (t.received position byte) := by
  obtain ⟨words, bytes, hbeats, hstored, -, hdue⟩ := h.course
  obtain ⟨m, hm, hl⟩ := h.fits
  obtain ⟨hp, hr, hleft⟩ := (slot?_eq_some_iff hm).mp hslot
  obtain ⟨hat, hmlength⟩ := h.current_of_isRead hw hm hr
  rw [hp, Option.getD_some, hmlength] at hl
  -- the bytes so far are the ones stored
  have hcount := h.stored_last
  rw [hstored, List.length_take, dataMoved, if_neg (by omega), if_pos hat.symm, hp,
    Option.getD_some] at hcount
  obtain rfl : position = bytes.length := by omega
  have hmark : t.stopDue bytes.length = decide (bytes.length = buffer.length - 2) := by
    rw [Bool.eq_iff_iff, decide_eq_true_eq, stopDue_iff hleft (hl.trans hmlength.symm), hmlength]
  obtain ⟨stops, hstops, hledger⟩ := h.toLedger.stopIf (t.stopDue bytes.length)
  refine ⟨stops ++ [.store t.current bytes.length byte], ?_, ?_, words, bytes ++ [byte], ?_, ?_, ?_,
    ?_⟩
  · rw [List.map_append, hstops]
    rfl
  · rw [← List.append_assoc]
    exact hledger.store byte hslot
  · rw [List.map_append, List.map_append, hbeats, hstops, hmark, closing_concat, List.append_assoc]
    rfl
  · rw [storedIn_append, storedIn_append, storedIn_of_stopBeats hstops, List.nil_append, hstored,
      List.take_of_length_le (by omega), List.take_of_length_le (by simp; omega)]
    simp [storedIn, Move.byteFor?, hat]
  · rw [List.length_append, List.length_singleton]
    omega
  · rw [List.length_append, List.length_singleton]
    change (t.discardDue || t.isSingle bytes.length) = _
    rw [hdue, isSingle, Bool.eq_iff_iff]
    simp only [Bool.or_eq_true, decide_eq_true_eq]
    omega

/-- A byte without a slot that leaves the count at zero is the one beyond a single one. -/
theorem discarded (byte : UInt8) (hslot : t.slot? = none) (hzero : t.unrequested = 0)
    (hquiet : t.discarded.unrequested = 0) (h : Closing writes address buffer moves t) :
    ∃ more, more.map Move.beat =
        Controller.stopBeats (decide (t.unrequested % 2 = 1)) ++ [.pulled byte] ∧
      Closing writes address buffer (moves ++ more) t.discarded := by
  obtain ⟨words, bytes, hbeats, hstored, -, hdue⟩ := h.course
  obtain ⟨-, hpaid, hcount⟩ := t.discarded_eq
  have howed : t.discardDue = true := by
    by_contra hnot
    rw [hquiet, if_neg hnot, hzero] at hcount
    cases hcount
  have hledger := h.toLedger.discarded byte hslot
  rw [if_pos howed] at hledger
  rw [hdue, decide_eq_true_eq] at howed
  obtain ⟨hone, hbytes⟩ := howed
  refine ⟨[.discard byte], ?_, hledger, words, bytes ++ [byte], ?_, ?_, ?_, ?_⟩
  · rw [hzero]
    rfl
  · have hmark : decide (bytes.length = buffer.length - 2) = false :=
      decide_eq_false (by omega)
    rw [List.map_append, hbeats, closing_concat, hmark, List.append_assoc]
    rfl
  · rw [storedIn_append, storedIn_of_none rfl, List.append_nil, hstored, hone,
      List.take_append_of_le_length (Nat.le_of_eq hbytes.symm)]
  · rw [List.length_append, List.length_singleton]
    omega
  · rw [hpaid, List.length_append, List.length_singleton, eq_comm]
    exact decide_eq_false (by omega)

theorem advance (sending : Bool) (h : Closing writes address buffer moves t) :
    Closing writes address buffer moves (t.advance sending) where
  toLedger := h.toLedger.advance sending
  course := by
    rw [discardDue_advance]
    exact h.course

/-! ## Events -/

theorem feeds {status : Status} {beats : List Beat} {sending : Bool} {fed : Transaction}
    (hb : buffer ≠ []) (h : Closing writes address buffer moves t)
    (hf : t.Feeds status beats sending fed) :
    ∃ more, more.map Move.beat = beats ∧ Closing writes address buffer (moves ++ more) fed := by
  cases hf with
  | full _ => exact ⟨[], rfl, by simpa using h⟩
  | spent _ _ => exact ⟨[], rfl, by simpa using h⟩
  | @sends _ word next => exact ⟨[.send word], rfl, h.send hb next⟩

theorem drains {status : Status} {beats : List Beat} {drained : Transaction}
    (hw : ∀ w ∈ writes, w.isRead = false) (hzero : t.unrequested = 0)
    (hquiet : drained.unrequested = 0) (h : Closing writes address buffer moves t)
    (hd : t.Drains status beats drained) :
    ∃ more, more.map Move.beat = beats ∧ Closing writes address buffer (moves ++ more) drained := by
  cases hd with
  | empty _ => exact ⟨[], rfl, by simpa using h⟩
  | stores _ slot byte => exact h.store hw byte slot
  | discards _ slot byte => exact h.discarded byte slot hzero hquiet

/-- An event keeps the course if the count of unrequested bytes is zero before it and after it. -/
theorem handles {status : Status} {beats : List Beat} {t' : Transaction} (hb : buffer ≠ [])
    (hw : ∀ w ∈ writes, w.isRead = false) (hzero : t.unrequested = 0) (hquiet : t'.unrequested = 0)
    (h : Closing writes address buffer moves t) (he : t.Handles status beats t') :
    ∃ more, more.map Move.beat = beats ∧ Closing writes address buffer (moves ++ more) t' := by
  cases he with
  | inert _ => exact ⟨[], rfl, by simpa using h⟩
  | halts _ _ =>
    refine ⟨[], rfl, ?_⟩
    rw [List.append_nil]
    exact ⟨h.toLedger.settled _ _ _, h.course⟩
  | @moves _ _ _ _ sending _ _ feeds drains =>
    rw [unrequested_advance] at hquiet
    obtain ⟨sent, rfl, hf⟩ := h.feeds hb feeds
    obtain ⟨pulled, rfl, hd⟩ := hf.drains hw (feeds.same.2.2.trans hzero) hquiet drains
    refine ⟨sent ++ pulled, List.map_append, ?_⟩
    rw [← List.append_assoc]
    exact hd.advance sending

end Closing

/-- What a closing read has come to at its end. -/
theorem Closing.ended (hb : buffer ≠ []) (hw : ∀ w ∈ writes, w.isRead = false)
    (h : Closing writes address buffer moves t)
    (hall : t.completed = (writes ++ [Message.read address buffer]).length)
    (hpaid : t.discardDue = false) :
    ∃ bytes : List UInt8, bytes.length = max buffer.length 2 ∧
      moves.map Move.beat =
        (Message.frame (writes ++ [.read address buffer])).map (.paced ·.bits) ++
          closing buffer.length bytes ∧
      t.chain = writes ++ [.read address (bytes.take buffer.length)] := by
  obtain ⟨words, bytes, hbeats, hstored, hlength, hdue⟩ := h.course
  have hlast : (writes ++ [Message.read address buffer])[writes.length]? =
      some (.read address buffer) := List.getElem?_concat_length
  have hfull : (storedIn writes.length moves).length = buffer.length :=
    h.stored_last.trans (h.dataMoved_of_completed hall hlast)
  have hwords : words = (Message.frame (writes ++ [.read address buffer])).map FifoWord.bits := by
    have hpaced := Ledger.filterMap_paced? moves
    rw [(h.toLedger.of_completed hall).1, Message.words_itinerary, hbeats] at hpaced
    rw [← hpaced, List.filterMap_append, filterMap_paced?_closing, List.append_nil,
      List.filterMap_map]
    exact List.filterMap_some.symm
  refine ⟨bytes, ?_, ?_, ?_⟩
  · rw [hpaid, eq_comm, decide_eq_false_iff_not] at hdue
    rw [hstored, List.length_take] at hfull
    have hpos := List.length_pos_iff.mpr hb
    omega
  · rw [hbeats, hwords, List.map_map]
    rfl
  · rw [h.filled, filled_closing hw hfull, hstored]

end Transaction
end TwoWire
