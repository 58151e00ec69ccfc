import TwoWire.Proofs.Reports
/-!
# What the fields of a transaction say

The fields of a transaction are not independent of each other: position, bytes left, bytes moved and
phase all tell of one place in the chain. They agree after any events, whatever their samples are, and
whether or not the wait was given up in between. A transaction never goes back, its end is final unless
a fault comes after it, and nothing at all comes after a fault.
-/
namespace TwoWire

namespace Message

theorem cost_append (first second : List Message) :
    cost (first ++ second) = cost first + cost second := by
  induction first with
  | nil => rw [List.nil_append, cost, Nat.zero_add]
  | cons m rest ih =>
    rw [List.cons_append, cost, cost, ih]
    omega

theorem cost_take_le {chain : List Message} {i j : Nat} (h : i ≤ j) :
    cost (chain.take i) ≤ cost (chain.take j) := by
  obtain ⟨k, rfl⟩ := Nat.exists_eq_add_of_le h
  rw [List.take_add, cost_append]
  exact Nat.le_add_right _ _

theorem cost_take_succ {chain : List Message} {j : Nat} {m : Message} (h : chain[j]? = some m) :
    cost (chain.take (j + 1)) = cost (chain.take j) + (1 + m.length) := by
  rw [List.take_add_one, h, cost_append]
  rfl

/-- Of a chain of which `moved` bytes have been moved in order, message `j` has been moved in full:
the bytes up to its end are among them. -/
def MovedInFull (chain : List Message) (moved j : Nat) : Prop :=
  cost (chain.take (j + 1)) ≤ moved

end Message

namespace Transaction
open Program

/-- What can happen to a transaction. -/
inductive Incident
  | event (status : Status)
  /-- The wait for the bus is given up. -/
  | givenUp

/-- What happens to a transaction, in order. -/
def undergo : List Incident → Transaction → Program Transaction
  | [], t => pure t
  | .event status :: rest, t => do
    let next ← t.onEvent status
    undergo rest next
  | .givenUp :: rest, t => undergo rest t.giveUp

/-! ## Place and phase -/

/-- The phase of a transaction that is not halted follows from its place. -/
def Phased (t : Transaction) : Prop :=
  t.phase ≠ .halted →
    t.position = none ∧ t.phase = .awaitingAddress ∨
      t.position.isSome ∧ 0 < t.left ∧ t.phase = .transferring ∨
      t.position.isSome ∧ t.left = 0 ∧ t.messagesLeft = 1 ∧
        (t.phase = .messageComplete ∨ t.phase = .transactionComplete)

/-- After an event the phase has been settled. -/
theorem phased_advance {t : Transaction} (sending : Bool) (hfits : t.Fits)
    (hpending : t.position = none → t.phase = .awaitingAddress) : (t.advance sending).Phased := by
  obtain ⟨m, hm, -⟩ := hfits
  obtain ⟨hlt, -⟩ := List.getElem?_eq_some_iff.mp hm
  unfold advance
  split
  case isFalse hp =>
    rw [Option.not_isSome_iff_eq_none] at hp
    exact fun _ => .inl ⟨hp, hpending hp⟩
  rename_i hp
  split
  case isFalse hl => exact fun _ => .inr (.inl ⟨hp, Nat.pos_of_ne_zero hl, rfl⟩)
  rename_i hl
  split
  case isTrue => exact fun _ => .inl ⟨rfl, rfl⟩
  rename_i hone
  have hlast : t.messagesLeft = 1 := by
    unfold messagesLeft at hone ⊢
    omega
  split
  · exact fun _ => .inr (.inr ⟨hp, hl, hlast, .inr rfl⟩)
  split
  · exact fun _ => .inr (.inr ⟨hp, hl, hlast, .inl rfl⟩)
  · rename_i hcomplete
    exact fun _ => .inr (.inr ⟨hp, hl, hlast, .inr (Decidable.not_not.mp hcomplete)⟩)

theorem position_sent_ne_none (t : Transaction) : t.sent.position ≠ none := by
  unfold sent
  split <;> exact nofun

@[simp] theorem phase_discarded (t : Transaction) : t.discarded.phase = t.phase := by
  unfold discarded
  split <;> rfl

@[simp] theorem position_discarded (t : Transaction) : t.discarded.position = t.position := by
  unfold discarded
  split <;> rfl

theorem Handles.phased {t t' : Transaction} {status : Status} {beats : List Beat}
    {chain : List Message} {moves : List Move} (h : Ledger chain moves t) (hphased : t.Phased)
    (he : t.Handles status beats t') : t'.Phased := by
  cases he with
  | inert _ => exact hphased
  | halts _ _ => exact fun hnot => absurd rfl hnot
  | @moves hlive _ out inward sending fed drained feeds drains =>
    obtain ⟨sent, -, hfed⟩ := h.feeds feeds
    obtain ⟨pulled, -, hdrained⟩ := hfed.drains drains
    have hrunning : t.phase ≠ .halted := by
      intro hp
      apply hlive
      simp [isInert, hp]
    have hpending : t.position = none → t.phase = .awaitingAddress := by
      intro hnone
      rcases hphased hrunning with ⟨-, hphase⟩ | ⟨hsome, -⟩ | ⟨hsome, -⟩
      · exact hphase
      · rw [hnone] at hsome
        cases hsome
      · rw [hnone] at hsome
        cases hsome
    -- an address that is pending after the event was pending before it
    refine phased_advance sending hdrained.fits fun hnone => ?_
    have hfed : fed.position = none ∧ drained.phase = fed.phase := by
      cases drains with
      | empty _ => exact ⟨hnone, rfl⟩
      | stores _ _ _ => cases hnone
      | discards _ _ _ =>
        rw [position_discarded] at hnone
        exact ⟨hnone, phase_discarded fed⟩
    rw [hfed.2]
    cases feeds with
    | full _ => exact hpending hfed.1
    | spent _ _ => exact hpending hfed.1
    | sends _ _ => exact absurd hfed.1 (position_sent_ne_none t)

/-! ## What every event keeps -/

/-- What holds of a transaction whatever has happened to it: it is sound, the bytes moved and the
outstanding ones are all bytes of the chain, a fault counts as a wait given up, and the phase follows
from the place. -/
structure Upright (chain : List Message) (t : Transaction) : Prop extends t.Sound chain where
  balance : t.moved + t.outstanding = Message.cost chain
  timedOut : t.fault.isSome → t.timedOut = true
  phased : t.Phased

theorem upright_start {chain : List Message} (h : chain ≠ []) : (start chain).Upright chain where
  toSound := sound_start h
  balance := by
    cases chain with
    | nil => exact absurd rfl h
    | cons m rest => simp [start, outstanding, Message.cost]
  timedOut := nofun
  phased := fun _ => .inl ⟨rfl, rfl⟩

/-- Only a fault marks the wait for a transaction as given up during an event. -/
theorem Handles.timedOut {t t' : Transaction} {status : Status} {beats : List Beat}
    (he : t.Handles status beats t') (h : t.fault.isSome → t.timedOut = true) :
    t'.fault.isSome → t'.timedOut = true := by
  cases he with
  | inert _ => exact h
  | halts _ _ => exact fun _ => rfl
  | @moves _ _ out inward sending fed drained feeds drains =>
    have hsame : drained.fault = t.fault ∧ drained.timedOut = t.timedOut := by
      have hfed : fed.fault = t.fault ∧ fed.timedOut = t.timedOut := by
        cases feeds with
        | full _ => exact ⟨rfl, rfl⟩
        | spent _ _ => exact ⟨rfl, rfl⟩
        | sends _ _ => unfold sent; split <;> exact ⟨rfl, rfl⟩
      cases drains with
      | discards _ _ _ => unfold discarded; split <;> exact hfed
      | _ => exact hfed
    have hkept : (drained.advance sending).timedOut = drained.timedOut := by
      unfold advance
      repeat' split
      all_goals rfl
    rw [fault_advance, hkept, hsame.1, hsame.2]
    exact h

namespace Upright

variable {chain : List Message} {t t' : Transaction}

theorem onEvent {status : Status} (h : t.Upright chain) (he : (t.onEvent status).Returns t') :
    t'.Upright chain := by
  obtain ⟨trace, hexec⟩ := executes_of_returns he
  obtain ⟨beats, -, hhandles⟩ := handles_of_executes hexec
  obtain ⟨moves, hledger⟩ := h.booked
  refine ⟨(h.toSound.handles hhandles).1, ?_, hhandles.timedOut h.timedOut,
    hhandles.phased hledger h.phased⟩
  rw [balance_onEvent he, h.balance]

theorem giveUp (h : t.Upright chain) : t.giveUp.Upright chain where
  booked := by
    obtain ⟨moves, hledger⟩ := h.booked
    exact ⟨moves, hledger.settled t.fault true t.phase⟩
  halted := h.halted
  closed := h.closed
  balance := h.balance
  timedOut := fun _ => rfl
  phased := h.phased

theorem undergo {incidents : List Incident} (h : t.Upright chain)
    (he : (undergo incidents t).Returns t') : t'.Upright chain := by
  induction incidents generalizing t with
  | nil =>
    rw [returns_pure.mp he]
    exact h
  | cons incident rest ih =>
    cases incident with
    | event status =>
      obtain ⟨next, hnext, hrest⟩ := returns_bind.mp he
      exact ih (h.onEvent hnext) hrest
    | givenUp => exact ih h.giveUp he

/-- The current message and the place in it. -/
theorem current (h : t.Upright chain) :
    ∃ m, chain[t.current]? = some m ∧ t.position.getD 0 + t.left = m.length := by
  obtain ⟨moves, hledger⟩ := h.booked
  obtain ⟨m, hm, -, hl⟩ := hledger.current
  exact ⟨m, hm, hl⟩

/-- The bytes moved are those of the messages before the current one and those moved of it. -/
theorem moved_eq (h : t.Upright chain) :
    t.moved = Message.cost (chain.take t.current) + t.reached := by
  obtain ⟨moves, hledger⟩ := h.booked
  obtain ⟨m, hm, -, hl⟩ := hledger.current
  have hall := h.balance
  have hrest : Message.cost (t.chain.drop (t.current + 1)) =
      Message.cost (chain.drop (t.current + 1)) := by
    apply Message.cost_congr
    rw [List.map_drop, List.map_drop, hledger.lengths]
  have hsplit : Message.cost chain =
      Message.cost (chain.take t.current) + (1 + m.length) +
        Message.cost (chain.drop (t.current + 1)) := by
    rw [← Message.cost_take_succ hm, ← Message.cost_append, List.take_append_drop]
  unfold outstanding at hall
  rw [hrest] at hall
  unfold reached
  cases hp : t.position with
  | none =>
    simp only [hp, Option.isSome_none, Bool.false_eq_true, if_false, Option.getD_none,
      Option.elim_none] at hall hl ⊢
    omega
  | some position =>
    simp only [hp, Option.isSome_some, if_true, Option.getD_some, Option.elim_some] at hall hl ⊢
    omega

/-- The messages moved in full are the first ones, and `completed` counts them. -/
theorem lt_completed_iff (h : t.Upright chain) {j : Nat} (hj : j < chain.length) :
    j < t.completed ↔ Message.MovedInFull chain t.moved j := by
  obtain ⟨m, hm, hl⟩ := h.current
  obtain ⟨hlt, -⟩ := List.getElem?_eq_some_iff.mp hm
  have hsucc := Message.cost_take_succ hm
  have hcompleted : t.completed = t.current + if t.position.isSome ∧ t.left = 0 then 1 else 0 := by
    unfold completed
    rw [h.length_chain]
    simp only [hlt, true_and]
  unfold Message.MovedInFull
  rw [h.moved_eq, hcompleted]
  rcases Nat.lt_trichotomy j t.current with hbefore | rfl | hafter
  · have hle : Message.cost (chain.take (j + 1)) ≤ Message.cost (chain.take t.current) :=
      Message.cost_take_le hbefore
    omega
  · rw [hsucc]
    unfold reached
    cases hp : t.position with
    | none =>
      simp only [Option.isSome_none, Bool.false_eq_true, false_and, if_false, Option.elim_none]
      omega
    | some position =>
      rw [hp, Option.getD_some] at hl
      simp only [Option.isSome_some, true_and, Option.elim_some]
      by_cases hleft : t.left = 0
      · rw [if_pos hleft]
        omega
      · rw [if_neg hleft]
        omega
  · have hle : Message.cost (chain.take (t.current + 1)) ≤ Message.cost (chain.take j) :=
      Message.cost_take_le hafter
    have hnext := Message.cost_take_succ (List.getElem?_eq_getElem hj)
    have hreached : t.reached ≤ 1 + m.length := by
      unfold reached
      cases hp : t.position with
      | none => simp
      | some position =>
        rw [hp, Option.getD_some] at hl
        simp
        omega
    have hnot : ¬ j < t.current + if t.position.isSome ∧ t.left = 0 then 1 else 0 := by
      split <;> omega
    omega

theorem completed_le_length (h : t.Upright chain) : t.completed ≤ chain.length := by
  obtain ⟨m, hm, -⟩ := h.current
  obtain ⟨hlt, -⟩ := List.getElem?_eq_some_iff.mp hm
  unfold completed
  split <;> omega

theorem moved_le (h : t.Upright chain) : t.moved ≤ Message.cost chain := by
  rw [← h.balance]
  exact Nat.le_add_right _ _

/-- More bytes moved never make fewer messages. -/
theorem completed_le_completed (h : t.Upright chain) (h' : t'.Upright chain)
    (hmoved : t.moved ≤ t'.moved) : t.completed ≤ t'.completed := by
  apply Nat.le_of_not_lt
  intro hlt
  have hj := Nat.lt_of_lt_of_le hlt h.completed_le_length
  have hfull : Message.MovedInFull chain t'.moved t'.completed :=
    Nat.le_trans ((h.lt_completed_iff hj).mp hlt) hmoved
  exact Nat.lt_irrefl _ ((h'.lt_completed_iff hj).mpr hfull)

end Upright

/-! ## From one state to later ones -/

theorem moved_le_undergo {incidents : List Incident} {t t' : Transaction}
    (he : (undergo incidents t).Returns t') : t.moved ≤ t'.moved := by
  induction incidents generalizing t with
  | nil => exact Nat.le_of_eq (congrArg moved (returns_pure.mp he)).symm
  | cons incident rest ih =>
    cases incident with
    | event status =>
      obtain ⟨next, hnext, hrest⟩ := returns_bind.mp he
      exact Nat.le_trans (moved_le_onEvent hnext) (ih hrest)
    | givenUp => exact ih (t := t.giveUp) he

/-- Whatever happens to a halted transaction leaves it as it is, without any access. -/
theorem undergo_of_halted {t : Transaction} (hphase : t.phase = .halted)
    (htimedOut : t.timedOut = true) (incidents : List Incident) :
    undergo incidents t = pure t := by
  have hinert : t.isInert := by simp [isInert, hphase]
  have hgivenUp : t.giveUp = t := by rw [giveUp, ← htimedOut]
  induction incidents with
  | nil => rfl
  | cons incident rest ih =>
    cases incident with
    | event status => rw [undergo, onEvent, if_pos hinert, pure_bind, ih]
    | givenUp => rw [undergo, hgivenUp, ih]

theorem phase_advance_of_complete {t : Transaction} (sending : Bool) (hp : t.position.isSome)
    (hl : t.left = 0) (hlast : t.messagesLeft = 1) (hphase : t.phase = .transactionComplete) :
    (t.advance sending).phase = .transactionComplete := by
  unfold advance
  rw [if_pos hp, if_pos hl, if_neg (by omega)]
  split
  · rfl
  · rw [if_neg (not_not_intro hphase), hphase]

/-- A complete transaction stays complete, unless a fault halts it. -/
theorem Upright.ended_onEvent {chain : List Message} {t t' : Transaction} {status : Status}
    (h : t.Upright chain) (hended : t.phase = .transactionComplete ∨ t.phase = .halted)
    (he : (t.onEvent status).Returns t') :
    t'.phase = .transactionComplete ∨ t'.phase = .halted := by
  obtain ⟨trace, hexec⟩ := executes_of_returns he
  obtain ⟨beats, -, hhandles⟩ := handles_of_executes hexec
  cases hhandles with
  | inert _ => exact hended
  | halts _ _ => exact .inr rfl
  | @moves hlive _ out inward sending fed drained feeds drains =>
    have hrunning : t.phase ≠ .halted := by
      intro hp
      apply hlive
      simp [isInert, hp]
    have hphase := hended.resolve_right hrunning
    obtain ⟨moves, hledger⟩ := h.booked
    have hall := h.closed hphase
    obtain ⟨hlast, hsome, hleft⟩ := (completed_eq_length_iff hledger.fits).mp hall
    obtain ⟨m, hm, -⟩ := hledger.fits
    obtain ⟨position, hp⟩ := Option.isSome_iff_exists.mp hsome
    -- nothing is left to be sent or stored
    have hfed : fed = t := by
      cases feeds with
      | full _ => rfl
      | spent _ _ => rfl
      | sends _ next =>
        rw [nextWord?_of_some hm hp, if_pos hleft] at next
        cases next
    subst hfed
    left
    cases drains with
    | empty _ => exact phase_advance_of_complete _ hsome hleft hlast hphase
    | stores _ slot _ => exact absurd (slot?_eq_some slot).2 (by omega)
    | discards _ _ _ =>
      unfold discarded
      split <;> exact phase_advance_of_complete _ hsome hleft hlast hphase

theorem Upright.ended_undergo {chain : List Message} {incidents : List Incident}
    {t t' : Transaction} (h : t.Upright chain)
    (hended : t.phase = .transactionComplete ∨ t.phase = .halted)
    (he : (Transaction.undergo incidents t).Returns t') :
    t'.phase = .transactionComplete ∨ t'.phase = .halted := by
  induction incidents generalizing t with
  | nil =>
    rw [returns_pure.mp he]
    exact hended
  | cons incident rest ih =>
    cases incident with
    | event status =>
      obtain ⟨next, hnext, hrest⟩ := returns_bind.mp he
      exact ih (h.onEvent hnext) (h.ended_onEvent hended hnext) hrest
    | givenUp => exact ih h.giveUp hended he

/-! ## The fields -/

/-- The fields of a transaction on the chain agree with the chain and with each other. -/
structure WellFormed (chain : List Message) (t : Transaction) : Prop where
  lengths : t.chain.map Message.length = chain.map Message.length
  /-- There is a current message, made up of the bytes moved of it and those that are left. -/
  current : ∃ m, chain[t.current]? = some m ∧ (t.position = none → t.left = m.length) ∧
    ∀ position, t.position = some position → position + t.left = m.length
  moved : t.moved = Message.cost (chain.take t.current) + t.position.elim 0 (1 + ·)
  moved_le : t.moved ≤ Message.cost chain
  completed_le : t.completed ≤ chain.length
  completed : ∀ j < chain.length, j < t.completed ↔ Message.MovedInFull chain t.moved j
  awaiting : t.phase ≠ .halted → (t.phase = .awaitingAddress ↔ t.position = none)
  transferring : t.phase ≠ .halted → (t.phase = .transferring ↔ t.position.isSome ∧ 0 < t.left)
  ended : t.phase ≠ .halted →
    (t.phase = .messageComplete ∨ t.phase = .transactionComplete ↔ t.completed = chain.length)
  halted : t.phase = .halted ↔ t.fault.isSome
  timedOut : t.fault.isSome → t.timedOut = true

/-- Whenever a byte of the current message is to be sent or stored, bytes are left to be counted
down and the position lies inside the message. -/
def InBounds (t : Transaction) : Prop :=
  ∃ m, t.chain[t.current]? = some m ∧
    ∀ position, t.position = some position → t.nextWord?.isSome ∨ t.slot?.isSome →
      0 < t.left ∧ position < m.length

theorem inBounds_of_fits {t : Transaction} (h : t.Fits) : t.InBounds := by
  obtain ⟨m, hm, hl⟩ := h
  refine ⟨m, hm, fun position hp hnext => ?_⟩
  have hleft : 0 < t.left := by
    rcases hnext with hword | hslot
    · obtain ⟨word, hword⟩ := Option.isSome_iff_exists.mp hword
      exact left_pos_of_nextWord? hword hp
    · obtain ⟨slot, hslot⟩ := Option.isSome_iff_exists.mp hslot
      exact (slot?_eq_some hslot).2
  rw [hp, Option.getD_some] at hl
  exact ⟨hleft, by omega⟩

theorem Upright.wellFormed {chain : List Message} {t : Transaction} (h : t.Upright chain) :
    t.WellFormed chain := by
  obtain ⟨m, hm, hl⟩ := h.current
  obtain ⟨moves, hledger⟩ := h.booked
  have hall := completed_eq_length_iff hledger.fits
  rw [h.length_chain] at hall
  constructor
  case lengths => exact hledger.lengths
  case current =>
    refine ⟨m, hm, fun hp => ?_, fun position hp => ?_⟩
    · rwa [hp, Option.getD_none, Nat.zero_add] at hl
    · rwa [hp, Option.getD_some] at hl
  case moved =>
    rw [h.moved_eq, reached]
    cases t.position with
    | none => rfl
    | some position => rw [Option.elim_some, Option.elim_some, Nat.add_comm 1]
  case moved_le => exact h.moved_le
  case completed_le => exact h.completed_le_length
  case completed => exact fun j hj => h.lt_completed_iff hj
  case halted => exact h.halted
  case timedOut => exact h.timedOut
  all_goals
    intro hrunning
    rcases h.phased hrunning with ⟨hp, hphase⟩ | ⟨hp, hleft, hphase⟩ | ⟨hp, hleft, hlast, hphase⟩
  case awaiting.inl => exact iff_of_true hphase hp
  case awaiting.inr.inl => simp [hphase, Option.isSome_iff_ne_none.mp hp]
  case awaiting.inr.inr =>
    rcases hphase with hphase | hphase <;> simp [hphase, Option.isSome_iff_ne_none.mp hp]
  case transferring.inl => simp [hphase, hp]
  case transferring.inr.inl => exact iff_of_true hphase ⟨hp, hleft⟩
  case transferring.inr.inr => rcases hphase with hphase | hphase <;> simp [hphase, hleft]
  case ended.inl => simp [hall, hphase, hp]
  case ended.inr.inl =>
    rw [hall]
    simp [hphase]
    omega
  case ended.inr.inr => exact iff_of_true hphase (hall.mpr ⟨hlast, hp, hleft⟩)

/-- Whatever happens to a transaction on a chain that is not empty, its fields agree and nothing is
accessed outside a buffer, before an event and in the middle of it. From there on neither the bytes
moved nor the messages completed ever become fewer; a halted transaction changes no more and makes no
access; and a complete one stays complete, unless a fault halts it. -/
theorem fields_agree {σ : Type} (hw : Hardware σ) (s : σ) (chain : List Message) (h : chain ≠ [])
    (before after : List Incident) :
    let o := (undergo before (start chain)).run hw s
    let later := (undergo after o.value).run hw o.state
    o.value.WellFormed chain ∧ o.value.InBounds ∧
      (∀ word, o.value.nextWord? = some word → o.value.sent.InBounds) ∧
      o.value.moved ≤ later.value.moved ∧ o.value.completed ≤ later.value.completed ∧
      (o.value.phase = .halted → later.value = o.value ∧ later.trace = []) ∧
      (o.value.phase = .transactionComplete →
        later.value.phase = .transactionComplete ∨ later.value.phase = .halted) := by
  intro o later
  have hbefore : (undergo before (start chain)).Returns o.value := returns_value_run hw _ s
  have hafter : (undergo after o.value).Returns later.value := returns_value_run hw _ o.state
  have hupright := (upright_start h).undergo hbefore
  have hlater := hupright.undergo hafter
  obtain ⟨moves, hledger⟩ := hupright.booked
  have hmoved := moved_le_undergo hafter
  refine ⟨hupright.wellFormed, inBounds_of_fits hledger.fits, fun word hword => ?_, hmoved,
    hupright.completed_le_completed hlater hmoved, fun hphase => ?_, fun hphase => ?_⟩
  · exact inBounds_of_fits (fits_sent hledger.fits hword)
  · have hsame : undergo after o.value = pure o.value :=
      undergo_of_halted hphase (hupright.timedOut (hupright.halted.mp hphase)) after
    simp only [later, hsame, run_pure, and_self]
  · exact hupright.ended_undergo (.inl hphase) hafter

/-- A register is read, and the wait is given up on the way: four bytes have been moved, the first
message is complete, and then a fault comes. -/
theorem fields_agree_on_registerRead :
    let chain := [Message.write 0x48 [1], Message.read 0x48 [0, 0]]
    let before := [.event ⟨0⟩, .givenUp, .event ⟨0⟩, .event ⟨0⟩, .event ⟨2⟩]
    let o := (undergo before (start chain)).run Script.respond {}
    let later := (undergo [.event ⟨8⟩, .event ⟨2⟩] o.value).run Script.respond o.state
    chain ≠ [] ∧ o.value.WellFormed chain ∧ o.value.moved = 4 ∧ o.value.completed = 1 ∧
      o.value.moved ≤ later.value.moved ∧ later.value.phase = .halted := by
  intro chain before o later
  obtain ⟨hfields, -, -, hmoved, -⟩ :=
    fields_agree Script.respond {} chain nofun before [.event ⟨8⟩, .event ⟨2⟩]
  exact ⟨nofun, hfields, by decide, by decide, hmoved, by decide⟩

end Transaction
end TwoWire
