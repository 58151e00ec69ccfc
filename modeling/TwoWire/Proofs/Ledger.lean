import Mathlib.Data.List.Induction
import TwoWire.Proofs.Itinerary
import TwoWire.Proofs.Traffic
/-!
# The ledger of a transaction

Every word and byte that crosses the queues is booked as one move: a word sent, a bare stop request,
a byte stored into its slot, the byte beyond a single-byte read thrown away, or a byte that nobody
asked for. The ledger ties the moves made so far to the state of the transaction; every event keeps
it, whatever the samples and the bytes are.
-/
namespace TwoWire

namespace Payload

/-- A buffer whose first bytes are the received ones. -/
def fill : Payload → List UInt8 → Payload
  | write bytes, _ => write bytes
  | read buffer, received => read (received ++ buffer.drop received.length)

end Payload

namespace Message

def fill (m : Message) (received : List UInt8) : Message := ⟨m.address, m.payload.fill received⟩

@[simp] theorem fill_nil (m : Message) : m.fill [] = m := by
  obtain ⟨address, payload⟩ := m
  cases payload <;> rfl

@[simp] theorem isRead_fill (m : Message) (received : List UInt8) :
    (m.fill received).isRead = m.isRead := by
  obtain ⟨address, payload⟩ := m
  cases payload <;> rfl

/-- Storing the next byte fills one more place. -/
theorem store_fill {m : Message} {received : List UInt8} (byte : UInt8)
    (h : received.length < m.length) :
    (m.fill received).store received.length byte = m.fill (received ++ [byte]) := by
  obtain ⟨address, payload⟩ := m
  cases payload with
  | write bytes => rfl
  | read buffer =>
    have hb : received.length < buffer.length := h
    have hs : (received ++ buffer.drop received.length).set received.length byte =
        received ++ byte :: buffer.drop (received.length + 1) := by
      rw [List.set_append_right _ _ (Nat.le_refl _), Nat.sub_self, List.drop_eq_getElem_cons hb,
        List.set_cons_zero]
    simp [fill, Payload.fill, store, Payload.store, hs]

end Message

/-- What a transaction does with one word or byte. -/
inductive Move
  | send (word : FifoWord)
  /-- A bare request for the stop condition. -/
  | stop
  | store (message position : Nat) (byte : UInt8)
  /-- Throw away the byte beyond a single-byte read. -/
  | discard (byte : UInt8)
  /-- Throw away a byte that no message asked for. -/
  | refuse (byte : UInt8)
  deriving DecidableEq

namespace Move

/-- The move as it crosses the queues. -/
def beat : Move → Beat
  | send word => .paced word.bits
  | stop => .bare FifoWord.stop.bits
  | store _ _ byte => .pulled byte
  | discard byte => .pulled byte
  | refuse byte => .pulled byte

/-- The stage of the itinerary that a move does; only words sent and bytes stored do one. -/
def stage? : Move → Option Stage
  | send word => some (.word word)
  | store message position _ => some (.slot message position)
  | _ => none

def isStore : Move → Bool
  | store _ _ _ => true
  | _ => false

def isDiscard : Move → Bool
  | discard _ => true
  | _ => false

def isRefuse : Move → Bool
  | refuse _ => true
  | _ => false

/-- The move fills a buffer of one byte. -/
def isSingle (chain : List Message) : Move → Bool
  | store message _ _ => (chain[message]?.map Message.length) == some 1
  | _ => false

/-- The byte that a move stores into message `j`. -/
def byteFor? (j : Nat) : Move → Option UInt8
  | store message _ byte => if message = j then some byte else none
  | _ => none

end Move

/-- The bytes that moves store into message `j`, in order. -/
def storedIn (j : Nat) (moves : List Move) : List UInt8 := moves.filterMap (Move.byteFor? j)

theorem storedIn_append (j : Nat) (moves more : List Move) :
    storedIn j (moves ++ more) = storedIn j moves ++ storedIn j more :=
  List.filterMap_append

@[simp] theorem storedIn_of_none {j : Nat} {move : Move} (h : move.byteFor? j = none) :
    storedIn j [move] = [] := by
  simp [storedIn, h]

/-- The chain with every byte that moves store at its place. -/
def filled (chain : List Message) (moves : List Move) : List Message :=
  chain.mapIdx fun j m => m.fill (storedIn j moves)

theorem getElem?_filled (chain : List Message) (moves : List Move) (j : Nat) :
    (filled chain moves)[j]? = chain[j]?.map fun m => m.fill (storedIn j moves) := by
  simp [filled]

theorem filled_append_of_none {move : Move} (h : ∀ j, move.byteFor? j = none)
    (chain : List Message) (moves : List Move) :
    filled chain (moves ++ [move]) = filled chain moves := by
  have hj : ∀ j, storedIn j (moves ++ [move]) = storedIn j moves := fun j => by
    rw [storedIn_append, storedIn_of_none (h j), List.append_nil]
  simp [filled, hj]

/-! ## Bytes thrown away -/

/-- The next stage of the itinerary after these moves is a slot, so the next byte belongs there. -/
def Awaited (chain : List Message) (moves : List Move) : Prop :=
  ∃ j position, (Message.itinerary 0 chain)[(moves.filterMap Move.stage?).length]? =
    some (.slot j position)

/-- A byte has been stored as the only one of its buffer, and the one beyond it has not been thrown
away since. -/
def Due (chain : List Message) (moves : List Move) : Prop :=
  ∃ before store after, moves = before ++ store :: after ∧ store.isSingle chain = true ∧
    ∀ move ∈ after, move.isDiscard = false

/-- A byte is thrown away, by a move that follows these ones, only if no slot waits for it. It is
then the one beyond a single-byte read if that is due, and is refused otherwise. -/
def Move.Apt (chain : List Message) (before : List Move) : Move → Prop
  | discard _ => ¬ Awaited chain before ∧ Due chain before
  | refuse _ => ¬ Awaited chain before ∧ ¬ Due chain before
  | _ => True

theorem not_due_nil (chain : List Message) : ¬ Due chain [] := by
  rintro ⟨before, store, after, hsplit, -⟩
  simp at hsplit

/-- A list with one element more is split at that element, or before it. -/
theorem concat_eq_append_cons {α : Type} {l before after : List α} {a b : α} :
    l ++ [a] = before ++ b :: after ↔
      (l = before ∧ a = b ∧ after = []) ∨ ∃ init, after = init ++ [a] ∧ l = before ++ b :: init := by
  constructor
  · intro hsplit
    rcases List.eq_nil_or_concat after with rfl | ⟨init, last, rfl⟩
    · obtain ⟨rfl, hlast⟩ := List.append_inj' hsplit rfl
      cases hlast
      exact .inl ⟨rfl, rfl, rfl⟩
    · rw [List.concat_eq_append, ← List.cons_append, ← List.append_assoc] at hsplit
      obtain ⟨rfl, hlast⟩ := List.append_inj' hsplit rfl
      cases hlast
      exact .inr ⟨init, List.concat_eq_append, rfl⟩
  · rintro (⟨rfl, rfl, rfl⟩ | ⟨init, rfl, rfl⟩)
    · rfl
    · simp

/-- Only a byte that is thrown away as due is no longer due. -/
theorem due_concat {chain : List Message} {moves : List Move} {move : Move} :
    Due chain (moves ++ [move]) ↔
      move.isSingle chain = true ∨ Due chain moves ∧ move.isDiscard = false := by
  constructor
  · rintro ⟨before, store, after, hsplit, hsingle, hafter⟩
    rcases concat_eq_append_cons.mp hsplit with ⟨-, rfl, -⟩ | ⟨init, rfl, rfl⟩
    · exact .inl hsingle
    · have hkept := hafter move (List.mem_append_right _ List.mem_cons_self)
      have hinit : ∀ m ∈ init, m.isDiscard = false := fun m hm =>
        hafter m (List.mem_append_left _ hm)
      exact .inr ⟨⟨before, store, init, rfl, hsingle, hinit⟩, hkept⟩
  · rintro (hsingle | ⟨⟨before, store, after, rfl, hsingle, hafter⟩, hkept⟩)
    · exact ⟨moves, move, [], rfl, hsingle, nofun⟩
    · refine ⟨before, store, after ++ [move], by simp, hsingle, fun m hm => ?_⟩
      rcases List.mem_append.mp hm with hm | hm
      · exact hafter m hm
      · rwa [List.mem_singleton.mp hm]

/-- Every move is apt after the ones before it. -/
def Orderly (chain : List Message) (moves : List Move) : Prop :=
  ∀ before move after, moves = before ++ move :: after → move.Apt chain before

theorem orderly_nil (chain : List Message) : Orderly chain [] := by
  intro before move after hsplit
  simp at hsplit

theorem orderly_concat {chain : List Message} {moves : List Move} {move : Move} :
    Orderly chain (moves ++ [move]) ↔ Orderly chain moves ∧ move.Apt chain moves := by
  constructor
  · intro h
    refine ⟨fun before next after hsplit => ?_, h moves move [] rfl⟩
    rw [hsplit] at h
    exact h before next (after ++ [move]) (List.append_assoc ..)
  · rintro ⟨h, hmove⟩ before next after hsplit
    rcases concat_eq_append_cons.mp hsplit with ⟨rfl, rfl, -⟩ | ⟨init, -, hinit⟩
    · exact hmove
    · exact h before next init hinit

/-- No more bytes are thrown away as due than single ones have been stored, and fewer while one is
due. -/
theorem Orderly.discards_bound {chain : List Message} {moves : List Move}
    (h : Orderly chain moves) :
    moves.countP Move.isDiscard ≤ moves.countP (Move.isSingle chain) ∧
      (Due chain moves → moves.countP Move.isDiscard < moves.countP (Move.isSingle chain)) := by
  induction moves using List.reverseRecOn with
  | nil => exact ⟨Nat.le_refl _, fun hdue => absurd hdue (not_due_nil chain)⟩
  | append_singleton moves move ih =>
    obtain ⟨hmoves, hapt⟩ := orderly_concat.mp h
    obtain ⟨hle, hlt⟩ := ih hmoves
    rw [due_concat, List.countP_append, List.countP_append, List.countP_singleton,
      List.countP_singleton]
    cases hdiscard : move.isDiscard with
    | true =>
      cases move with
      | discard byte =>
        have hpaid : moves.countP Move.isDiscard + 1 ≤ moves.countP (Move.isSingle chain) :=
          hlt hapt.2
        simpa [Move.isSingle] using hpaid
      | _ => cases hdiscard
    | false =>
      cases hsingle : move.isSingle chain with
      | true =>
        simp only [Bool.false_eq_true, if_true, if_false]
        exact ⟨by omega, fun _ => by omega⟩
      | false => simpa using ⟨hle, hlt⟩

/-- The moves made so far and the state that they have led to. -/
structure Ledger (chain : List Message) (moves : List Move) (t : Transaction) : Prop where
  fits : t.Fits
  lengths : t.chain.map Message.length = chain.map Message.length
  stages : moves.filterMap Move.stage? ++ t.ahead = Message.itinerary 0 chain
  filled : t.chain = filled chain moves
  stored : ∀ j m, chain[j]? = some m → m.isRead →
    (storedIn j moves).length = t.dataMoved j m.length
  moved : t.moved = (moves.filterMap Move.stage?).length
  /-- The count of the refused bytes is a word. -/
  unrequested : t.unrequested = UInt32.ofNat (moves.countP Move.isRefuse)
  due : t.discardDue = true ↔ Due chain moves
  orderly : Orderly chain moves

namespace Transaction

@[simp] theorem discardDue_sent (t : Transaction) : t.sent.discardDue = t.discardDue := by
  unfold sent
  split <;> rfl

@[simp] theorem unrequested_sent (t : Transaction) : t.sent.unrequested = t.unrequested := by
  unfold sent
  split <;> rfl

@[simp] theorem moved_sent (t : Transaction) : t.sent.moved = t.moved + 1 := by
  unfold sent
  split <;> rfl

/-- The sending half changes no buffer, and nothing about the bytes thrown away. -/
theorem Feeds.same {status : Status} {t fed : Transaction} {out : List Beat} {sending : Bool}
    (hf : t.Feeds status out sending fed) :
    fed.chain = t.chain ∧ fed.discardDue = t.discardDue ∧ fed.unrequested = t.unrequested := by
  cases hf with
  | full _ => exact ⟨rfl, rfl, rfl⟩
  | spent _ _ => exact ⟨rfl, rfl, rfl⟩
  | sends _ _ => exact ⟨t.chain_sent, t.discardDue_sent, t.unrequested_sent⟩

/-- Throwing a byte away pays what is due, or else counts it. -/
theorem discarded_eq (t : Transaction) :
    t.discarded.chain = t.chain ∧ t.discarded.discardDue = false ∧
      t.discarded.unrequested = if t.discardDue then t.unrequested else t.unrequested + 1 := by
  unfold discarded
  cases t.discardDue <;> simp

@[simp] theorem chain_advance (t : Transaction) (sending : Bool) :
    (t.advance sending).chain = t.chain := by
  unfold advance
  repeat' split
  all_goals rfl

@[simp] theorem unrequested_advance (t : Transaction) (sending : Bool) :
    (t.advance sending).unrequested = t.unrequested := by
  unfold advance
  repeat' split
  all_goals rfl

@[simp] theorem discardDue_advance (t : Transaction) (sending : Bool) :
    (t.advance sending).discardDue = t.discardDue := by
  unfold advance
  repeat' split
  all_goals rfl

end Transaction

namespace Ledger

variable {chain : List Message} {moves : List Move} {t : Transaction}

theorem start (h : chain ≠ []) : Ledger chain [] (Transaction.start chain) where
  fits := Transaction.fits_start h
  lengths := rfl
  stages := Transaction.ahead_start chain
  filled := by
    refine List.ext_getElem? fun j => ?_
    rw [getElem?_filled]
    simp [Transaction.start, storedIn]
  stored j m _ _ := by
    rw [Transaction.dataMoved_start]
    rfl
  moved := rfl
  unrequested := rfl
  due := iff_of_false Bool.false_ne_true (not_due_nil chain)
  orderly := orderly_nil chain

/-- The current message, at first and with what was stored into it. -/
theorem current (h : Ledger chain moves t) :
    ∃ m, chain[t.current]? = some m ∧
      t.chain[t.current]? = some (m.fill (storedIn t.current moves)) ∧
      t.position.getD 0 + t.left = m.length := by
  obtain ⟨m', hm', hl⟩ := h.fits
  have hf := hm'
  rw [h.filled, getElem?_filled] at hf
  obtain ⟨m, hm, rfl⟩ := Option.map_eq_some_iff.mp hf
  have hlen := congrArg (fun lengths : List Nat => lengths[t.current]?) h.lengths
  simp only [List.getElem?_map, hm, hm', Option.map_some, Option.some.injEq] at hlen
  exact ⟨m, hm, hm', hl.trans hlen⟩

theorem length_chain (h : Ledger chain moves t) : t.chain.length = chain.length := by
  simpa using congrArg List.length h.lengths

theorem isRead (h : Ledger chain moves t) {j : Nat} {m m' : Message} (hm : chain[j]? = some m)
    (hr : m.isRead) (hm' : t.chain[j]? = some m') : m'.isRead := by
  rw [h.filled, getElem?_filled, hm] at hm'
  cases hm'
  rwa [Message.isRead_fill]

/-- A byte without a slot is not one that the itinerary has a place for. -/
theorem not_awaited (h : Ledger chain moves t) (hs : t.slot? = none) : ¬ Awaited chain moves := by
  rintro ⟨j, position, hnext⟩
  rw [← h.stages, List.getElem?_append_right (Nat.le_refl _), Nat.sub_self] at hnext
  obtain ⟨rest, hahead⟩ := List.head?_eq_some_iff.mp (List.head?_eq_getElem? ▸ hnext)
  rw [Transaction.slot?_of_ahead h.fits hahead] at hs
  cases hs

/-! ## One move -/

theorem send {word : FifoWord} (h : Ledger chain moves t) (hw : t.nextWord? = some word) :
    Ledger chain (moves ++ [.send word]) t.sent where
  fits := Transaction.fits_sent h.fits hw
  lengths := by rw [Transaction.chain_sent, h.lengths]
  stages := by
    rw [← h.stages, Transaction.ahead_sent h.fits hw]
    simp [Move.stage?]
  filled := by
    rw [Transaction.chain_sent, h.filled, filled_append_of_none fun _ => rfl]
  stored j m hm hr := by
    rw [storedIn_append, storedIn_of_none rfl, List.append_nil, h.stored j m hm hr,
      Transaction.dataMoved_sent m.length hw fun _ => h.isRead hm hr]
  moved := by
    rw [List.filterMap_append, List.length_append, ← h.moved, Transaction.moved_sent]
    rfl
  unrequested := by
    rw [Transaction.unrequested_sent, h.unrequested, List.countP_append]
    rfl
  due := by
    rw [Transaction.discardDue_sent, h.due, due_concat]
    simp [Move.isSingle, Move.isDiscard]
  orderly := orderly_concat.mpr ⟨h.orderly, trivial⟩

/-- A move that does no stage leaves the transaction at its place. -/
theorem aside {move : Move} {due : Bool} {unrequested : UInt32} (h : Ledger chain moves t)
    (hs : move.stage? = none) (hapt : move.Apt chain moves)
    (hd : due = (t.discardDue && !move.isDiscard))
    (hu : unrequested = t.unrequested + UInt32.ofNat ([move].countP Move.isRefuse)) :
    Ledger chain (moves ++ [move]) { t with discardDue := due, unrequested := unrequested } := by
  have hnone : ∀ j, move.byteFor? j = none := fun j => by cases move <;> first | rfl | cases hs
  have hsingle : move.isSingle chain = false := by cases move <;> first | rfl | cases hs
  have hstages : (moves ++ [move]).filterMap Move.stage? = moves.filterMap Move.stage? := by
    simp [hs]
  constructor
  case fits => exact h.fits
  case lengths => exact h.lengths
  case stages => rw [hstages, ← h.stages]; rfl
  case filled => rw [filled_append_of_none hnone, ← h.filled]
  case stored =>
    intro j m hm hr
    rw [storedIn_append, storedIn_of_none (hnone j), List.append_nil, h.stored j m hm hr]
    rfl
  case moved => rw [hstages, ← h.moved]
  case unrequested => rw [hu, h.unrequested, List.countP_append, UInt32.ofNat_add]
  case due =>
    rw [due_concat, hsingle, ← h.due, hd]
    simp
  case orderly => exact orderly_concat.mpr ⟨h.orderly, hapt⟩

theorem stop (h : Ledger chain moves t) : Ledger chain (moves ++ [.stop]) t :=
  h.aside rfl trivial (Bool.and_true _).symm (UInt32.add_zero _).symm

theorem store {position : Nat} (byte : UInt8) (h : Ledger chain moves t)
    (hs : t.slot? = some position) :
    Ledger chain (moves ++ [.store t.current position byte]) (t.received position byte) := by
  obtain ⟨m, hm, hf, hl⟩ := h.current
  obtain ⟨hp, hr, hleft⟩ := (Transaction.slot?_eq_some_iff hf).mp hs
  rw [Message.isRead_fill] at hr
  rw [hp, Option.getD_some] at hl
  have hcount := h.stored t.current m hm hr
  rw [Transaction.dataMoved, if_neg (Nat.lt_irrefl _), if_pos rfl, hp, Option.getD_some] at hcount
  have hnew : ∀ j, storedIn j (moves ++ [.store t.current position byte]) =
      storedIn j moves ++ if t.current = j then [byte] else [] := by
    intro j
    rw [storedIn_append]
    by_cases hj : t.current = j <;> simp [storedIn, Move.byteFor?, hj]
  constructor
  case fits => exact Transaction.fits_received byte h.fits hs
  case lengths =>
    rw [← h.lengths]
    refine List.ext_getElem? fun j => ?_
    simp only [Transaction.received, List.getElem?_map, List.getElem?_modify]
    by_cases hj : t.current = j <;> cases t.chain[j]? <;> simp [hj]
  case stages =>
    rw [← h.stages, Transaction.ahead_received byte h.fits hs]
    simp [Move.stage?]
  case filled =>
    refine List.ext_getElem? fun j => ?_
    rw [getElem?_filled, hnew]
    change (t.chain.modify t.current _)[j]? = _
    rw [List.getElem?_modify, h.filled, getElem?_filled]
    by_cases hj : t.current = j
    · subst hj
      have hlt : (storedIn t.current moves).length < m.length := by omega
      simp only [hm, Option.map_some, Option.map_eq_map, if_true]
      rw [← Message.store_fill byte hlt, hcount]
    · simp [hj]
  case stored =>
    intro j m' hm' hr'
    rw [hnew, List.length_append, h.stored j m' hm' hr', Transaction.dataMoved_received byte _ _ hs]
    by_cases hj : t.current = j
    · simp [hj]
    · have hj' : j ≠ t.current := fun e => hj e.symm
      simp [hj, hj']
  case moved =>
    rw [List.filterMap_append, List.length_append, ← h.moved]
    rfl
  case unrequested =>
    change t.unrequested = _
    rw [h.unrequested, List.countP_append]
    rfl
  case due =>
    have hone : t.left = 1 ∧ position = 0 ↔ m.length = 1 := by omega
    rw [due_concat, ← h.due]
    simp [Transaction.received, Transaction.isSingle, Move.isSingle, Move.isDiscard, hm, hone,
      or_comm]
  case orderly => exact orderly_concat.mpr ⟨h.orderly, trivial⟩

/-- A byte without a slot is thrown away: the one that is due, or one that nobody asked for. -/
theorem discarded (byte : UInt8) (h : Ledger chain moves t) (hs : t.slot? = none) :
    Ledger chain (moves ++ [if t.discardDue then .discard byte else .refuse byte])
      t.discarded := by
  have hfree := h.not_awaited hs
  unfold Transaction.discarded
  split
  · rename_i hd
    have hapt : (Move.discard byte).Apt chain moves := ⟨hfree, h.due.mp hd⟩
    exact h.aside rfl hapt (Bool.and_false _).symm (UInt32.add_zero _).symm
  · rename_i hd
    have hapt : (Move.refuse byte).Apt chain moves := ⟨hfree, fun hdue => hd (h.due.mpr hdue)⟩
    exact h.aside rfl hapt (Bool.and_true _).symm rfl

/-! ## No move -/

/-- Faults and phases are not booked. -/
theorem settled (fault : Option Fault) (timedOut : Bool) (phase : Phase)
    (h : Ledger chain moves t) :
    Ledger chain moves { t with fault := fault, timedOut := timedOut, phase := phase } :=
  ⟨h.fits, h.lengths, h.stages, h.filled, h.stored, h.moved, h.unrequested, h.due, h.orderly⟩

theorem dataMoved_advance (sending : Bool) (h : Ledger chain moves t) {j : Nat} {m : Message}
    (hm : chain[j]? = some m) :
    (t.advance sending).dataMoved j m.length = t.dataMoved j m.length := by
  refine Transaction.dataMoved_advance sending ?_
  rintro rfl
  obtain ⟨m', hcur, -, hlen⟩ := h.current
  obtain rfl : m' = m := Option.some.inj (hcur.symm.trans hm)
  exact hlen

theorem advance (sending : Bool) (h : Ledger chain moves t) :
    Ledger chain moves (t.advance sending) := by
  obtain ⟨hfits, hahead⟩ := Transaction.ahead_advance sending h.fits
  constructor
  case fits => exact hfits
  case lengths => rw [Transaction.chain_advance, h.lengths]
  case stages => rw [hahead, h.stages]
  case filled => rw [Transaction.chain_advance, h.filled]
  case stored =>
    intro j m hm hr
    rw [h.stored j m hm hr, h.dataMoved_advance sending hm]
  case moved => rw [Transaction.moved_advance, h.moved]
  case unrequested => rw [Transaction.unrequested_advance, h.unrequested]
  case due => rw [Transaction.discardDue_advance, h.due]
  case orderly => exact h.orderly

/-! ## Events -/

open Program

theorem feeds {status : Status} {beats : List Beat} {sending : Bool} {fed : Transaction}
    (h : Ledger chain moves t) (hf : t.Feeds status beats sending fed) :
    ∃ more, more.map Move.beat = beats ∧ Ledger chain (moves ++ more) fed := by
  cases hf with
  | full _ => exact ⟨[], rfl, by simpa using h⟩
  | spent _ _ => exact ⟨[], rfl, by simpa using h⟩
  | @sends _ word next => exact ⟨[.send word], rfl, h.send next⟩

theorem stopIf (due : Bool) (h : Ledger chain moves t) :
    ∃ more, more.map Move.beat = Controller.stopBeats due ∧ Ledger chain (moves ++ more) t := by
  cases due with
  | true => exact ⟨[.stop], rfl, h.stop⟩
  | false => exact ⟨[], rfl, by simpa using h⟩

theorem drains {status : Status} {beats : List Beat} {drained : Transaction}
    (h : Ledger chain moves t) (hd : t.Drains status beats drained) :
    ∃ more, more.map Move.beat = beats ∧ Ledger chain (moves ++ more) drained := by
  cases hd with
  | empty _ => exact ⟨[], rfl, by simpa using h⟩
  | @stores _ position slot byte =>
    obtain ⟨stops, hs, hstopped⟩ := h.stopIf (t.stopDue position)
    refine ⟨stops ++ [.store t.current position byte], ?_, ?_⟩
    · rw [List.map_append, hs]
      rfl
    · rw [← List.append_assoc]
      exact hstopped.store byte slot
  | discards _ slot byte =>
    obtain ⟨stops, hs, hstopped⟩ := h.stopIf (t.unrequested % 2 = 1)
    refine ⟨stops ++ [if t.discardDue then .discard byte else .refuse byte], ?_, ?_⟩
    · rw [List.map_append, hs]
      cases t.discardDue <;> rfl
    · rw [← List.append_assoc]
      exact hstopped.discarded byte slot

theorem handles {status : Status} {beats : List Beat} {t' : Transaction}
    (h : Ledger chain moves t) (he : t.Handles status beats t') :
    ∃ more, more.map Move.beat = beats ∧ Ledger chain (moves ++ more) t' := by
  cases he with
  | inert _ => exact ⟨[], rfl, by simpa using h⟩
  | halts _ _ =>
    refine ⟨[], rfl, ?_⟩
    rw [List.append_nil]
    exact h.settled _ _ _
  | @moves _ _ _ _ sending _ _ feeds drains =>
    obtain ⟨sent, rfl, hf⟩ := h.feeds feeds
    obtain ⟨pulled, rfl, hd⟩ := hf.drains drains
    refine ⟨sent ++ pulled, List.map_append, ?_⟩
    rw [← List.append_assoc]
    exact hd.advance sending

/-- Some moves with the traffic of the trace extend the ledger to the transaction. -/
def Books (chain : List Message) (moves : List Move) (trace : List Event) (t : Transaction) :
    Prop :=
  ∃ more, Carries trace (more.map Move.beat) ∧ Ledger chain (moves ++ more) t

/-- An event keeps the ledger, whatever its sample and the answers to its accesses are. -/
theorem books_onEvent {t' : Transaction} {status : Status} {trace : List Event}
    (h : Ledger chain moves t) (he : (t.onEvent status).Executes trace t') :
    Books chain moves trace t' := by
  obtain ⟨beats, hcarry, hh⟩ := Transaction.handles_of_executes he
  obtain ⟨more, rfl, hmore⟩ := h.handles hh
  exact ⟨more, hcarry, hmore⟩

/-- Events in any number keep the ledger. -/
theorem books_serve {statuses : List Status} {t' : Transaction} {trace : List Event}
    (h : Ledger chain moves t) (he : (Transaction.serve statuses t).Executes trace t') :
    Books chain moves trace t' := by
  induction statuses generalizing moves t trace with
  | nil =>
    obtain ⟨rfl, rfl⟩ := executes_pure.mp he
    exact ⟨[], .nil, by simpa using h⟩
  | cons status rest ih =>
    obtain ⟨first, next, second, rfl, hnext, he⟩ := executes_bind.mp he
    obtain ⟨more, hmore, hn⟩ := books_onEvent h hnext
    obtain ⟨later, hlater, hl⟩ := ih hn he
    refine ⟨more ++ later, ?_, ?_⟩
    · rw [List.map_append]
      exact hmore.append hlater
    · rwa [← List.append_assoc]

/-! ## Whole runs -/

/-- After any events, a transaction that is not inert has a ledger. -/
theorem of_live {σ : Type} (hw : Hardware σ) (s : σ) (statuses : List Status)
    (hlive : ((Transaction.serve statuses (.start chain)).run hw s).value.isInert = false) :
    ∃ moves, Ledger chain moves ((Transaction.serve statuses (.start chain)).run hw s).value := by
  have hchain : chain ≠ [] := by
    rintro rfl
    have hinert : (Transaction.start []).isInert := rfl
    rw [Transaction.serve_of_isInert hinert, run_pure, hinert] at hlive
    cases hlive
  obtain ⟨moves, -, hledger⟩ := (Ledger.start hchain).books_serve (executes_run hw _ s)
  exact ⟨_, hledger⟩

theorem filterMap_paced? (moves : List Move) :
    (moves.map Move.beat).filterMap Beat.paced? =
      ((moves.filterMap Move.stage?).filterMap Stage.word?).map FifoWord.bits := by
  induction moves with
  | nil => rfl
  | cons move rest ih =>
    cases move <;>
      simp only [List.map_cons, List.filterMap_cons, Move.beat, Beat.paced?, Move.stage?,
        Stage.word?, ih]

/-- A stage is done by a paced word or by a stored byte. -/
theorem length_stages (moves : List Move) :
    (moves.filterMap Move.stage?).length =
      ((moves.map Move.beat).filterMap Beat.paced?).length + moves.countP Move.isStore := by
  induction moves with
  | nil => rfl
  | cons move rest ih =>
    cases move <;>
      simp only [List.map_cons, List.filterMap_cons, List.countP_cons, List.length_cons, Move.beat,
        Beat.paced?, Move.stage?, Move.isStore, ih, if_true, Bool.false_eq_true, if_false] <;>
      omega

end Ledger

/-- Whatever the samples and the answers of the board are, the traffic of a transaction follows the
itinerary of its chain. The paced words are a first part of the canonical frame. Words sent and
bytes stored come in the order of the itinerary, so an address goes out only when the message before
it has been moved in full. A byte that is pulled while a slot is next is stored there. Any other one
is thrown away: as the byte beyond a single-byte read if that is due, or else as one that nobody
asked for, and only those are counted, by a word that goes round. The buffers hold what was stored
and are otherwise as they were. -/
theorem traffic_follows_itinerary {σ : Type} (hw : Hardware σ) (s : σ) (chain : List Message)
    (statuses : List Status) :
    let o := (Transaction.serve statuses (Transaction.start chain)).run hw s
    ∃ moves : List Move,
      traffic o.trace = moves.map Move.beat ∧
      (traffic o.trace).filterMap Beat.paced? <+: (Message.frame chain).map FifoWord.bits ∧
      moves.filterMap Move.stage? <+: Message.itinerary 0 chain ∧
      o.value.chain = filled chain moves ∧
      (∀ j m, chain[j]? = some m → m.isRead →
        (storedIn j moves).length = o.value.dataMoved j m.length) ∧
      o.value.moved =
        ((traffic o.trace).filterMap Beat.paced?).length + moves.countP Move.isStore ∧
      (∀ before move after, moves = before ++ move :: after → move.Apt chain before) ∧
      (o.value.discardDue = true ↔ Due chain moves) ∧
      o.value.unrequested = UInt32.ofNat (moves.countP Move.isRefuse) ∧
      moves.countP Move.isDiscard ≤ moves.countP (Move.isSingle chain) := by
  intro o
  have he := Program.executes_run hw (Transaction.serve statuses (Transaction.start chain)) s
  by_cases hc : chain = []
  · subst hc
    have hinert : (Transaction.start []).isInert := rfl
    have ho : o = ⟨Transaction.start [], s, [], []⟩ := by
      change (Transaction.serve statuses (Transaction.start [])).run hw s = _
      rw [Transaction.serve_of_isInert hinert, Program.run_pure]
    have hdue : false = true ↔ Due [] [] := iff_of_false Bool.false_ne_true (not_due_nil [])
    rw [ho]
    exact ⟨[], rfl, List.nil_prefix, List.nil_prefix, rfl, by simp, rfl, orderly_nil [], hdue, rfl,
      Nat.le_refl _⟩
  obtain ⟨moves, hcarry, h⟩ := (Ledger.start hc).books_serve he
  rw [List.nil_append] at h
  have htraffic : traffic o.trace = moves.map Move.beat := hcarry.traffic_eq
  have hordered : moves.filterMap Move.stage? <+: Message.itinerary 0 chain :=
    ⟨_, h.stages⟩
  refine ⟨moves, htraffic, ?_, hordered, h.filled, h.stored, ?_, h.orderly, h.due, h.unrequested,
    h.orderly.discards_bound.1⟩
  · rw [htraffic, Ledger.filterMap_paced?, ← Message.words_itinerary 0]
    exact (hordered.filterMap _).map _
  · rw [htraffic, ← Ledger.length_stages]
    exact h.moved

end TwoWire
