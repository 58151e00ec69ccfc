import TwoWire.Transaction.Conservation
/-!
# The itinerary of a chain

A chain fixes in advance everything that a transaction moves, and in which order: for each message
its address word, then the words of its bytes or the slots of its buffer. A transaction is always
at one place of this itinerary. What lies ahead of it loses its first stage with each word sent and
each byte stored, and nothing else changes it.
-/
namespace TwoWire

/-- One unit of progress: a word that is sent, or a slot of a read buffer that is filled. -/
inductive Stage
  | word (word : FifoWord)
  | slot (message position : Nat)
  deriving DecidableEq

namespace Message

/-- The words of the bytes of a write; the final byte of the last message carries the stop. -/
def dataWords (last : Bool) : List UInt8 → List FifoWord
  | [] => []
  | byte :: rest => .data byte (last && rest.isEmpty) :: dataWords last rest

/-- The address word; the one of an empty last message carries the stop. -/
def addressWord (m : Message) (last : Bool) : FifoWord :=
  .address m.address m.isRead (last && decide (m.length = 0))

/-- The words that one message sends. -/
def words (m : Message) (last : Bool) : List FifoWord :=
  m.addressWord last ::
    match m.payload with
    | .write bytes => dataWords last bytes
    | .read _ => []

/-- The canonical frame of a chain: the words of its messages in order. -/
def frame : List Message → List FifoWord
  | [] => []
  | m :: rest => m.words rest.isEmpty ++ frame rest

/-- The stages of message number `j` after its address. -/
def body (m : Message) (j : Nat) (last : Bool) : List Stage :=
  match m.payload with
  | .write bytes => (dataWords last bytes).map .word
  | .read buffer => (List.range buffer.length).map (.slot j)

/-- All stages of message number `j`. -/
def legs (m : Message) (j : Nat) (last : Bool) : List Stage :=
  .word (m.addressWord last) :: m.body j last

/-- The stages of a chain whose first message has number `j`. -/
def itinerary (j : Nat) : List Message → List Stage
  | [] => []
  | m :: rest => m.legs j rest.isEmpty ++ itinerary (j + 1) rest

end Message

namespace Stage

def word? : Stage → Option FifoWord
  | word w => some w
  | slot _ _ => none

end Stage

namespace Message

theorem getElem?_dataWords (last : Bool) (bytes : List UInt8) (i : Nat) :
    (dataWords last bytes)[i]? =
      bytes[i]?.map fun byte => .data byte (last && decide (i + 1 = bytes.length)) := by
  induction bytes generalizing i with
  | nil => rfl
  | cons byte rest ih =>
    cases i with
    | zero => cases rest <;> simp [dataWords]
    | succ i => simp [dataWords, ih]

@[simp] theorem length_dataWords (last : Bool) (bytes : List UInt8) :
    (dataWords last bytes).length = bytes.length := by
  induction bytes with
  | nil => rfl
  | cons byte rest ih => simp [dataWords, ih]

theorem dataWords_append (last : Bool) (bytes : List UInt8) {rest : List UInt8} (h : rest ≠ []) :
    dataWords last (bytes ++ rest) = dataWords false bytes ++ dataWords last rest := by
  induction bytes with
  | nil => rfl
  | cons byte more ih =>
    have hne : (more ++ rest).isEmpty = false := by
      cases more with
      | nil => exact List.isEmpty_eq_false_iff.mpr h
      | cons _ _ => rfl
    rw [List.cons_append, dataWords, hne, ih, Bool.and_false]
    rfl

@[simp] theorem length_body (m : Message) (j : Nat) (last : Bool) :
    (m.body j last).length = m.length := by
  unfold body length Payload.bytes
  cases m.payload <;> simp

@[simp] theorem body_store (m : Message) (position : Nat) (byte : UInt8) (j : Nat) (last : Bool) :
    (m.store position byte).body j last = m.body j last := by
  unfold body store Payload.store
  cases m.payload <;> simp

@[simp] theorem legs_store (m : Message) (position : Nat) (byte : UInt8) (j : Nat) (last : Bool) :
    (m.store position byte).legs j last = m.legs j last := by
  unfold legs addressWord
  rw [body_store, length_store]
  simp [store, isRead]

theorem body_eq_of_outgoing? {m : Message} {position : Nat} {byte : UInt8}
    (h : m.outgoing? position = some byte) (j : Nat) (last : Bool) :
    (m.body j last)[position]? =
      some (.word (.data byte (last && decide (position + 1 = m.length)))) := by
  obtain ⟨address, payload⟩ := m
  cases payload with
  | write bytes =>
    have hb : bytes[position]? = some byte := h
    simp only [body, List.getElem?_map, getElem?_dataWords, hb, Option.map_some]
    rfl
  | read buffer => cases h

theorem body_eq_of_isRead {m : Message} {position : Nat} (hr : m.isRead)
    (hp : position < m.length) (j : Nat) (last : Bool) :
    (m.body j last)[position]? = some (.slot j position) := by
  obtain ⟨address, payload⟩ := m
  cases payload with
  | write bytes => cases hr
  | read buffer =>
    have hb : position < buffer.length := hp
    simp [body, hb]

theorem drop_legs {m : Message} {j position : Nat} {last : Bool} {stage : Stage}
    (h : (m.body j last)[position]? = some stage) :
    (m.legs j last).drop (position + 1) = stage :: (m.legs j last).drop (position + 2) := by
  obtain ⟨hi, rfl⟩ := List.getElem?_eq_some_iff.mp h
  exact List.drop_eq_getElem_cons hi

/-- The words on the itinerary of a chain are its frame. -/
theorem words_itinerary (j : Nat) (chain : List Message) :
    (itinerary j chain).filterMap Stage.word? = frame chain := by
  induction chain generalizing j with
  | nil => rfl
  | cons m rest ih =>
    have hb : (m.legs j rest.isEmpty).filterMap Stage.word? = m.words rest.isEmpty := by
      obtain ⟨address, payload⟩ := m
      cases payload with
      | write bytes =>
        simp [legs, body, words, Stage.word?, List.filterMap_map, Function.comp_def]
      | read buffer => simp [legs, body, words, Stage.word?]
    rw [itinerary, List.filterMap_append, hb, ih, frame]

/-- The slots of message number `j`. -/
def slots (m : Message) (j : Nat) : List Stage :=
  match m.payload with
  | .write _ => []
  | .read buffer => (List.range buffer.length).map (.slot j)

/-- The words of messages that others follow. -/
def opening : List Message → List FifoWord
  | [] => []
  | m :: rest => m.words false ++ opening rest

theorem frame_concat (before : List Message) (m : Message) :
    frame (before ++ [m]) = opening before ++ m.words true := by
  induction before with
  | nil => exact List.append_nil _
  | cons first rest ih =>
    have hmore : (rest ++ [m]).isEmpty = false := by simp
    rw [List.cons_append, frame, ih, hmore, opening, List.append_assoc]

/-- Writes in front of other messages come with all their words first. -/
theorem itinerary_append (j : Nat) (before : List Message) {rest : List Message} (hrest : rest ≠ [])
    (h : ∀ w ∈ before, w.isRead = false) :
    itinerary j (before ++ rest) =
      (opening before).map .word ++ itinerary (j + before.length) rest := by
  induction before generalizing j with
  | nil => rfl
  | cons first more ih =>
    have hread := h first List.mem_cons_self
    have hmore : (more ++ rest).isEmpty = false := by simp [hrest]
    obtain ⟨address, payload⟩ := first
    cases payload with
    | read buffer => cases hread
    | write bytes =>
      rw [List.cons_append, itinerary, ih _ fun w hw => h w (List.mem_cons_of_mem _ hw), hmore,
        opening, List.map_append, List.append_assoc, List.length_cons]
      have hj : j + 1 + more.length = j + (more.length + 1) := by omega
      rw [hj]
      rfl

/-- If no message but the last one is a read, all words come before all slots. -/
theorem itinerary_concat (j : Nat) (before : List Message) (m : Message)
    (h : ∀ w ∈ before, w.isRead = false) :
    itinerary j (before ++ [m]) =
      (frame (before ++ [m])).map .word ++ m.slots (j + before.length) := by
  rw [itinerary_append j before (List.cons_ne_nil m []) h, frame_concat, List.map_append,
    List.append_assoc]
  obtain ⟨address, payload⟩ := m
  cases payload <;> simp [itinerary, legs, words, body, slots]

theorem itinerary_drop {chain : List Message} {i : Nat} {m : Message} (h : chain[i]? = some m) :
    itinerary i (chain.drop i) =
      m.legs i (decide (chain.length - i = 1)) ++ itinerary (i + 1) (chain.drop (i + 1)) := by
  obtain ⟨hi, rfl⟩ := List.getElem?_eq_some_iff.mp h
  have hl : (chain.drop (i + 1)).isEmpty = decide (chain.length - i = 1) := by
    rw [Bool.eq_iff_iff]
    simp
    omega
  rw [List.drop_eq_getElem_cons hi, itinerary, hl]

end Message

namespace Transaction

/-- How many stages of the current message are done. -/
def reached (t : Transaction) : Nat := t.position.elim 0 (· + 1)

/-- The stages that are still to be done. -/
def ahead (t : Transaction) : List Stage :=
  match t.chain[t.current]? with
  | none => []
  | some m =>
    (m.legs t.current (decide (t.messagesLeft = 1))).drop t.reached ++
      Message.itinerary (t.current + 1) (t.chain.drop (t.current + 1))

/-- Data bytes moved so far of message number `j`, which has `length` of them. -/
def dataMoved (t : Transaction) (j length : Nat) : Nat :=
  if j < t.current then length else if j = t.current then t.position.getD 0 else 0

/-- There is a current message, and its bytes are the moved ones and those that are left. -/
def Fits (t : Transaction) : Prop :=
  ∃ m, t.chain[t.current]? = some m ∧ t.position.getD 0 + t.left = m.length

theorem fits_start {chain : List Message} (h : chain ≠ []) : (start chain).Fits := by
  cases chain with
  | nil => cases h rfl
  | cons m rest => exact ⟨m, by simp [start]⟩

theorem ahead_start (chain : List Message) :
    (start chain).ahead = Message.itinerary 0 chain := by
  cases chain with
  | nil => rfl
  | cons m rest =>
    have hm : (m :: rest)[0]? = some m := rfl
    have hi := Message.itinerary_drop hm
    simpa [ahead, start, reached, messagesLeft] using hi.symm

/-! ## One event -/

theorem nextWord?_of_none {t : Transaction} {m : Message} (hm : t.chain[t.current]? = some m)
    (hp : t.position = none) :
    t.nextWord? = some (m.addressWord (decide (t.messagesLeft = 1))) := by
  simp [nextWord?, hm, hp, Message.addressWord]

theorem nextWord?_of_some {t : Transaction} {m : Message} {position : Nat}
    (hm : t.chain[t.current]? = some m) (hp : t.position = some position) :
    t.nextWord? =
      if t.left = 0 then none
      else (m.outgoing? position).map fun byte =>
        .data byte (decide (t.messagesLeft = 1) && decide (t.left = 1)) := by
  simp [nextWord?, hm, hp, Bool.and_comm]

/-- A read has nothing to send after its address. -/
theorem nextWord?_of_read {t : Transaction} {m : Message} {position : Nat}
    (hm : t.chain[t.current]? = some m) (hr : m.isRead) (hp : t.position = some position) :
    t.nextWord? = none := by
  obtain ⟨address, payload⟩ := m
  cases payload with
  | write bytes => cases hr
  | read buffer =>
    rw [nextWord?_of_some hm hp]
    exact ite_self none

@[simp] theorem chain_sent (t : Transaction) : t.sent.chain = t.chain := by
  unfold sent
  split <;> rfl

@[simp] theorem current_sent (t : Transaction) : t.sent.current = t.current := by
  unfold sent
  split <;> rfl

@[simp] theorem messagesLeft_sent (t : Transaction) : t.sent.messagesLeft = t.messagesLeft := by
  simp [messagesLeft]

@[simp] theorem reached_sent (t : Transaction) : t.sent.reached = t.reached + 1 := by
  unfold sent reached
  split <;> rename_i hp <;> simp [hp]

theorem fits_sent {t : Transaction} {word : FifoWord} (h : t.Fits)
    (hw : t.nextWord? = some word) : t.sent.Fits := by
  obtain ⟨m, hm, hl⟩ := h
  cases hp : t.position with
  | none =>
    rw [hp] at hl
    exact ⟨m, by simpa [sent, hp] using hm, by simpa [sent, hp] using hl⟩
  | some position =>
    have hpos := left_pos_of_nextWord? hw hp
    rw [hp] at hl
    refine ⟨m, by simpa [sent, hp] using hm, ?_⟩
    simp only [sent, hp, Option.getD_some] at hl ⊢
    omega

/-- Sending takes the first stage off what lies ahead. -/
theorem ahead_sent {t : Transaction} {word : FifoWord} (h : t.Fits)
    (hw : t.nextWord? = some word) : t.ahead = .word word :: t.sent.ahead := by
  obtain ⟨m, hm, hl⟩ := h
  cases hp : t.position with
  | none =>
    rw [nextWord?_of_none hm hp] at hw
    cases hw
    have hr : t.reached = 0 := by simp [reached, hp]
    simp only [ahead, chain_sent, current_sent, messagesLeft_sent, reached_sent, hm, hr]
    rfl
  | some position =>
    rw [nextWord?_of_some hm hp] at hw
    split at hw
    · cases hw
    · obtain ⟨byte, hb, rfl⟩ := Option.map_eq_some_iff.mp hw
      rw [hp, Option.getD_some] at hl
      have he : decide (t.left = 1) = decide (position + 1 = m.length) := by
        rw [decide_eq_decide]
        omega
      have hd := Message.drop_legs
        (Message.body_eq_of_outgoing? hb t.current (decide (t.messagesLeft = 1)))
      rw [← he] at hd
      simp only [ahead, chain_sent, current_sent, messagesLeft_sent, reached_sent, hm]
      simp [reached, hp, hd]

theorem getElem?_chain_received (t : Transaction) (position : Nat) (byte : UInt8) :
    (t.received position byte).chain[t.current]? =
      t.chain[t.current]?.map fun m => m.store position byte := by
  simp [received]

theorem slot?_eq_some_iff {t : Transaction} {m : Message} {position : Nat}
    (hm : t.chain[t.current]? = some m) :
    t.slot? = some position ↔ t.position = some position ∧ m.isRead ∧ 0 < t.left := by
  unfold slot?
  rw [hm]
  cases t.position with
  | none => simp
  | some q =>
    by_cases hr : m.isRead ∧ 0 < t.left <;> simp [hr]

theorem fits_received {t : Transaction} {position : Nat} (byte : UInt8) (h : t.Fits)
    (hs : t.slot? = some position) : (t.received position byte).Fits := by
  obtain ⟨m, hm, hl⟩ := h
  obtain ⟨hp, -, hleft⟩ := (slot?_eq_some_iff hm).mp hs
  refine ⟨m.store position byte, ?_, ?_⟩
  · change (t.received position byte).chain[t.current]? = _
    rw [getElem?_chain_received, hm]
    rfl
  · rw [hp, Option.getD_some] at hl
    simp only [received, Option.getD_some, Message.length_store]
    omega

/-- Storing a byte takes the first stage off what lies ahead. -/
theorem ahead_received {t : Transaction} {position : Nat} (byte : UInt8) (h : t.Fits)
    (hs : t.slot? = some position) :
    t.ahead = .slot t.current position :: (t.received position byte).ahead := by
  obtain ⟨m, hm, hl⟩ := h
  obtain ⟨hp, hr, hleft⟩ := (slot?_eq_some_iff hm).mp hs
  rw [hp, Option.getD_some] at hl
  have hlt : position < m.length := by omega
  have hd := Message.drop_legs
    (Message.body_eq_of_isRead hr hlt t.current (decide (t.messagesLeft = 1)))
  have hc : (t.received position byte).chain[(t.received position byte).current]? =
      some (m.store position byte) := by
    change (t.received position byte).chain[t.current]? = _
    rw [getElem?_chain_received, hm]
    rfl
  have hrest : (t.received position byte).chain.drop (t.current + 1) =
      t.chain.drop (t.current + 1) := by
    rw [received, List.drop_modify_of_lt _ _ _ _ (Nat.lt_succ_self _)]
  have hleft' : (t.received position byte).messagesLeft = t.messagesLeft := by
    simp [received, messagesLeft]
  unfold ahead
  rw [hm, hc, hleft']
  simp only [Message.legs_store]
  change _ = _ :: (_ ++ Message.itinerary (t.current + 1) (List.drop (t.current + 1) _))
  rw [hrest]
  have hreached : t.reached = position + 1 := by simp [reached, hp]
  have hreached' : (t.received position byte).reached = position + 2 := rfl
  rw [hreached, hreached', hd, List.cons_append]
  rfl

/-- Behind a message that has been moved in full lie the stages of the next ones. -/
theorem ahead_of_end {t : Transaction} (h : t.Fits) (hp : t.position.isSome) (hl : t.left = 0) :
    t.ahead = Message.itinerary (t.current + 1) (t.chain.drop (t.current + 1)) := by
  obtain ⟨m, hm, hlength⟩ := h
  obtain ⟨position, hp⟩ := Option.isSome_iff_exists.mp hp
  rw [hp, Option.getD_some, hl, Nat.add_zero] at hlength
  have hdone : (m.legs t.current (decide (t.messagesLeft = 1))).drop (position + 1) = [] := by
    simp [Message.legs, hlength]
  simp only [ahead, hm, reached, hp, Option.elim_some, hdone, List.nil_append]

/-- A transaction turns only when every stage of its message is done. -/
theorem ahead_turn {t : Transaction} (h : t.Fits) (hp : t.position.isSome) (hl : t.left = 0)
    (hm : 1 < t.messagesLeft) : t.turn.Fits ∧ t.turn.ahead = t.ahead := by
  unfold messagesLeft at hm
  have hn : t.current + 1 < t.chain.length := by omega
  have hnext := List.getElem?_eq_getElem hn
  constructor
  · exact ⟨_, hnext, by simp [turn, hnext]⟩
  · rw [ahead_of_end h hp hl, Message.itinerary_drop hnext]
    simp [ahead, turn, reached, messagesLeft, hnext]

theorem ahead_advance {t : Transaction} (sending : Bool) (h : t.Fits) :
    (t.advance sending).Fits ∧ (t.advance sending).ahead = t.ahead := by
  unfold advance
  split
  case isFalse => exact ⟨h, rfl⟩
  rename_i hp
  split
  case isFalse => exact ⟨h, rfl⟩
  rename_i hl
  split
  case isTrue hm => exact ahead_turn h hp hl hm
  split
  · exact ⟨h, rfl⟩
  · split <;> exact ⟨h, rfl⟩

/-! ## Data bytes of one message -/

@[simp] theorem dataMoved_start (chain : List Message) (j length : Nat) :
    (start chain).dataMoved j length = 0 := by
  simp only [dataMoved, start, Nat.not_lt_zero, if_false, Option.getD_none]
  exact ite_self 0

/-- After its address a read message has nothing to send. -/
theorem dataMoved_sent {t : Transaction} {word : FifoWord} {j : Nat} (length : Nat)
    (hw : t.nextWord? = some word) (hr : ∀ m, t.chain[j]? = some m → m.isRead) :
    t.sent.dataMoved j length = t.dataMoved j length := by
  unfold dataMoved
  rw [current_sent]
  by_cases hj : j = t.current
  · subst hj
    have hpos : t.sent.position.getD 0 = t.position.getD 0 := by
      cases hp : t.position with
      | none => simp [sent, hp]
      | some position =>
        unfold nextWord? at hw
        cases hm : t.chain[t.current]? with
        | none => simp [hm] at hw
        | some m =>
          have hread := hr m hm
          obtain ⟨address, payload⟩ := m
          cases payload with
          | write bytes => cases hread
          | read buffer => simp [hm, hp, Message.outgoing?] at hw
    rw [hpos]
  · simp only [hj, if_false]

theorem dataMoved_received {t : Transaction} {position : Nat} (byte : UInt8) (j length : Nat)
    (hs : t.slot? = some position) :
    (t.received position byte).dataMoved j length =
      t.dataMoved j length + if j = t.current then 1 else 0 := by
  obtain ⟨hp, -⟩ := slot?_eq_some hs
  unfold dataMoved received
  by_cases hj : j = t.current
  · subst hj
    simp [hp]
  · simp [hj]

@[simp] theorem dataMoved_discarded (t : Transaction) (j length : Nat) :
    t.discarded.dataMoved j length = t.dataMoved j length := by
  unfold discarded
  split <;> rfl

/-- The message that is left behind has been moved in full. -/
theorem dataMoved_advance {t : Transaction} {j length : Nat} (sending : Bool)
    (h : j = t.current → t.position.getD 0 + t.left = length) :
    (t.advance sending).dataMoved j length = t.dataMoved j length := by
  unfold advance
  split
  case isFalse => rfl
  split
  case isFalse => rfl
  rename_i hl
  split
  case isFalse =>
    split
    · rfl
    · split <;> rfl
  unfold dataMoved turn
  rcases Nat.lt_trichotomy j t.current with hj | hj | hj
  · simp [hj, Nat.lt_succ_of_lt hj]
  · have hlen := h hj
    subst hj
    simp
    omega
  · have h1 : ¬ j < t.current := by omega
    have h2 : ¬ j < t.current + 1 := by omega
    have h3 : j ≠ t.current := by omega
    simp only [h1, h2, h3, if_false, Option.getD_none]
    exact ite_self 0

/-- At the end of its last message nothing lies ahead of a transaction. -/
theorem ahead_eq_nil {t : Transaction} (h : t.Fits) (hm : t.messagesLeft = 1)
    (hp : t.position.isSome) (hl : t.left = 0) : t.ahead = [] := by
  have hrest : t.chain.drop (t.current + 1) = [] := by
    rw [List.drop_eq_nil_iff]
    unfold messagesLeft at hm
    omega
  rw [ahead_of_end h hp hl, hrest, Message.itinerary]

/-- A transaction with nothing ahead has moved its last message in full. -/
theorem completed_of_ahead_nil {t : Transaction} (h : t.Fits) (ha : t.ahead = []) :
    t.current + 1 = t.chain.length ∧ t.position.isSome ∧ t.left = 0 := by
  obtain ⟨m, hm, hl⟩ := h
  obtain ⟨hc, -⟩ := List.getElem?_eq_some_iff.mp hm
  simp only [ahead, hm, List.append_eq_nil_iff] at ha
  obtain ⟨hlegs, hrest⟩ := ha
  have hlast : ¬ t.current + 1 < t.chain.length := by
    intro hn
    rw [List.drop_eq_getElem_cons hn] at hrest
    simp [Message.itinerary, Message.legs] at hrest
  rw [List.drop_eq_nil_iff] at hlegs
  cases hp : t.position with
  | none => simp [reached, hp, Message.legs] at hlegs
  | some position =>
    simp only [reached, hp, Option.elim_some, Option.getD_some, Message.legs, List.length_cons,
      Message.length_body] at hlegs hl
    exact ⟨by omega, rfl, by omega⟩

/-! ## The next stage -/

/-- Before the end of the current message there is a word to send or a slot to fill. -/
theorem Fits.next_of_left {t : Transaction} (h : t.Fits) (hleft : t.left ≠ 0) :
    (∃ word, t.nextWord? = some word) ∨
      (t.nextWord? = none ∧ ∃ position, t.slot? = some position) := by
  obtain ⟨m, hm, hl⟩ := h
  cases hp : t.position with
  | none => exact .inl ⟨_, nextWord?_of_none hm hp⟩
  | some position =>
    have hnext := nextWord?_of_some hm hp
    rw [if_neg hleft] at hnext
    rw [hp, Option.getD_some] at hl
    obtain ⟨address, payload⟩ := m
    cases payload with
    | write bytes =>
      have hlt : position < bytes.length := by
        have : position + t.left = bytes.length := hl
        omega
      have hbyte : (Message.mk address (.write bytes)).outgoing? position =
          some bytes[position] := List.getElem?_eq_getElem hlt
      rw [hbyte, Option.map_some] at hnext
      exact .inl ⟨_, hnext⟩
    | read buffer =>
      exact .inr ⟨hnext, position, (slot?_eq_some_iff hm).mpr ⟨hp, rfl, by omega⟩⟩

/-- A slot that comes next is the one that waits for a byte. -/
theorem slot?_of_ahead {t : Transaction} {j position : Nat} {rest : List Stage} (h : t.Fits)
    (ha : t.ahead = .slot j position :: rest) : t.slot? = some position := by
  cases hword : t.nextWord? with
  | some word =>
    rw [ahead_sent h hword] at ha
    cases ha
  | none =>
    have hleft : t.left ≠ 0 := by
      intro hl
      obtain ⟨m, hm, -⟩ := id h
      cases hp : t.position with
      | none =>
        rw [nextWord?_of_none hm hp] at hword
        cases hword
      | some position =>
        -- behind the end of a message an address comes next
        have hsome : t.position.isSome := by rw [hp]; rfl
        rw [ahead_of_end h hsome hl] at ha
        cases hrest : t.chain.drop (t.current + 1) with
        | nil =>
          rw [hrest] at ha
          cases ha
        | cons m rest =>
          rw [hrest] at ha
          cases ha
    rcases h.next_of_left hleft with ⟨word, hsome⟩ | ⟨-, position', hs⟩
    · rw [hsome] at hword
      cases hword
    · rw [ahead_received 0 h hs] at ha
      cases ha
      exact hs

end Transaction
end TwoWire
