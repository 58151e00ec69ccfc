import TwoWire.Proofs.WellFormed
/-!
# A transaction comes to its end

A transaction never waits for something that cannot happen. As long as a byte of its chain is
outstanding, an event that finds both queues ready moves one, wherever the transaction stands; once
none is, one more event throws away what is still due and completes it. Writes alone need nothing
from the read queue for that. So the bytes that are outstanding, and one, bound the events that it
takes.
-/
namespace TwoWire

/-- An event with this sample serves a chain: nothing failed, the write queue takes a word, and the
read queue holds a byte if the chain has anything to read. -/
structure Status.Serves (chain : List Message) (status : Status) : Prop where
  clean : status.meets Status.errorMask = false
  room : status.has .writeFull = false
  holds : status.has .readFull = true ∨ ∀ m ∈ chain, m.isRead = false

theorem Status.Serves.fault?_eq_none {chain : List Message} {status : Status}
    (h : status.Serves chain) : status.fault? = none := by
  rw [← Option.not_isSome_iff_eq_none, Status.fault?_isSome, h.clean]
  exact Bool.false_ne_true

namespace Message

/-- Only a read has slots on the itinerary. -/
theorem exists_isRead_of_slot_mem {chain : List Message} {i j position : Nat}
    (h : Stage.slot j position ∈ itinerary i chain) : ∃ m ∈ chain, m.isRead = true := by
  induction chain generalizing i with
  | nil => cases h
  | cons m rest ih =>
    rcases List.mem_append.mp h with hlegs | hrest
    · refine ⟨m, List.mem_cons_self, ?_⟩
      obtain ⟨address, payload⟩ := m
      cases payload with
      | write bytes => simp [legs, body] at hlegs
      | read buffer => rfl
    · obtain ⟨m', hmem, hread⟩ := ih hrest
      exact ⟨m', List.mem_cons_of_mem m hmem, hread⟩

end Message

namespace Ledger

variable {chain : List Message} {moves : List Move} {t : Transaction}

/-- A chain of writes never has a byte to be thrown away. -/
theorem discardDue_of_writes (h : Ledger chain moves t) (hw : ∀ m ∈ chain, m.isRead = false) :
    t.discardDue = false := by
  rw [← Bool.not_eq_true, h.due]
  rintro ⟨before, move, after, rfl, hsingle, -⟩
  cases move with
  | store j position byte =>
    have hstage : Stage.slot j position ∈ Message.itinerary 0 chain := by
      rw [← h.stages]
      refine List.mem_append_left _ (List.mem_filterMap.mpr ⟨.store j position byte, ?_, rfl⟩)
      exact List.mem_append_right _ List.mem_cons_self
    obtain ⟨m, hm, hread⟩ := Message.exists_isRead_of_slot_mem hstage
    rw [hw m hm] at hread
    cases hread
  | _ => cases hsingle

/-- A chain of writes never waits for a byte. -/
theorem slot?_of_writes (h : Ledger chain moves t) (hw : ∀ m ∈ chain, m.isRead = false) :
    t.slot? = none := by
  obtain ⟨m, hm, hfilled, -⟩ := h.current
  refine Option.eq_none_iff_forall_ne_some.mpr fun position hs => ?_
  obtain ⟨-, hread, -⟩ := (Transaction.slot?_eq_some_iff hfilled).mp hs
  rw [Message.isRead_fill, hw m (List.mem_of_getElem? hm)] at hread
  cases hread

end Ledger

namespace Transaction
open Program

variable {chain : List Message} {status : Status} {beats : List Beat} {t t' : Transaction}

/-! ## One event -/

/-- At the end of the last message nothing is outstanding. -/
theorem outstanding_of_end (hp : t.position.isSome) (hl : t.left = 0) (hlast : t.messagesLeft = 1) :
    t.outstanding = 0 := by
  have hrest : t.chain.drop (t.current + 1) = [] := by
    rw [List.drop_eq_nil_iff]
    unfold messagesLeft at hlast
    omega
  rw [outstanding, if_pos hp, hl, hrest, Message.cost]

/-- With nothing left to send, and no byte due to be thrown away, the transaction completes there. -/
theorem phase_advance_of_end (hp : t.position.isSome) (hl : t.left = 0)
    (hlast : t.messagesLeft = 1) (hdue : t.discardDue = false) :
    (t.advance false).phase = .transactionComplete := by
  unfold advance
  rw [if_pos hp, if_pos hl, if_neg (by omega), hdue]
  rfl

theorem Drains.moved_le {drained : Transaction} (h : t.Drains status beats drained) :
    t.moved ≤ drained.moved := by
  cases h with
  | empty _ => exact Nat.le_refl _
  | stores _ _ _ => exact Nat.le_succ _
  | discards _ _ _ => exact Nat.le_of_eq (moved_discarded t).symm

namespace Upright

variable (h : t.Upright chain) (hlive : t.phase ≠ .halted) (hs : status.Serves chain)
include h hlive

theorem fault_eq_none : t.fault = none := by
  rwa [Ne, h.halted, Option.not_isSome_iff_eq_none] at hlive

/-- A transaction with nothing outstanding is at the end of its last message. -/
theorem end_of_outstanding (hnone : t.outstanding = 0) :
    t.position.isSome ∧ t.left = 0 ∧ t.messagesLeft = 1 := by
  unfold outstanding at hnone
  rcases h.phased hlive with ⟨hp, -⟩ | ⟨-, hl, -⟩ | ⟨hp, hl, hlast, -⟩
  · rw [hp] at hnone
    simp at hnone
  · omega
  · exact ⟨hp, hl, hlast⟩

/-- As long as a byte is outstanding there is a word to send or a slot to fill. -/
theorem next_of_outstanding (hsome : t.outstanding ≠ 0) (hspent : t.nextWord? = none) :
    ∃ position, t.slot? = some position := by
  obtain ⟨moves, hledger⟩ := h.booked
  have hleft : t.left ≠ 0 := by
    intro hl
    rcases h.phased hlive with ⟨hp, -⟩ | ⟨-, hpos, -⟩ | ⟨hp, -, hlast, -⟩
    · obtain ⟨m, hm, -⟩ := hledger.fits
      rw [nextWord?_of_none hm hp] at hspent
      cases hspent
    · omega
    · exact hsome (outstanding_of_end hp hl hlast)
  rcases hledger.fits.next_of_left hleft with ⟨word, hword⟩ | ⟨-, hslot⟩
  · rw [hword] at hspent
    cases hspent
  · exact hslot

include hs

theorem phase_of_served (he : t.Handles status beats t') : t'.phase ≠ .halted := by
  obtain ⟨hsound, hfault⟩ := h.toSound.handles he
  rw [h.fault_eq_none hlive, hs.fault?_eq_none] at hfault
  rw [Ne, hsound.halted, hfault]
  exact Bool.false_ne_true

/-- What an event that serves the chain does: it sends the next word, or there is none and what is
in the read queue is taken. -/
theorem cases_of_served (he : t.Handles status beats t') :
    (∃ word fed inward drained, t.nextWord? = some word ∧ fed = t.sent ∧
        fed.Drains status inward drained ∧ t' = drained.advance true) ∨
      ∃ inward drained, t.nextWord? = none ∧ t.Drains status inward drained ∧
        t' = drained.advance false := by
  cases he with
  | inert hinert =>
    rw [h.isInert_iff, h.fault_eq_none hlive] at hinert
    cases hinert
  | halts _ faulty =>
    rw [hs.fault?_eq_none] at faulty
    cases faulty
  | moves _ _ feeds drains =>
    cases feeds with
    | full hfull =>
      rw [hs.room] at hfull
      cases hfull
    | spent _ last => exact .inr ⟨_, _, last, drains, rfl⟩
    | sends _ next => exact .inl ⟨_, _, _, _, next, rfl, drains, rfl⟩

/-- As long as a byte is outstanding the event moves one. -/
theorem moved_lt_of_served (hsome : t.outstanding ≠ 0) (he : t.Handles status beats t') :
    t.moved < t'.moved := by
  rcases h.cases_of_served hlive hs he with
    ⟨word, fed, inward, drained, -, rfl, drains, rfl⟩ | ⟨inward, drained, hspent, drains, rfl⟩
  · rw [moved_advance]
    exact Nat.lt_of_lt_of_le (Nat.lt_of_succ_le (Nat.le_of_eq (moved_sent t).symm)) drains.moved_le
  · obtain ⟨position, hslot⟩ := h.next_of_outstanding hlive hsome hspent
    rw [moved_advance]
    cases drains with
    | stores _ _ _ => exact Nat.lt_succ_self _
    | discards _ hnone _ =>
      rw [hnone] at hslot
      cases hslot
    | empty hempty =>
      obtain ⟨moves, hledger⟩ := h.booked
      rw [hledger.slot?_of_writes (hs.holds.resolve_left hempty)] at hslot
      cases hslot

/-- Once no byte is outstanding the event completes the transaction. -/
theorem complete_of_served (hnone : t.outstanding = 0) (he : t.Handles status beats t') :
    t'.phase = .transactionComplete := by
  obtain ⟨hp, hl, hlast⟩ := h.end_of_outstanding hlive hnone
  rcases h.cases_of_served hlive hs he with
    ⟨word, fed, inward, drained, hword, -⟩ | ⟨inward, drained, -, drains, rfl⟩
  · obtain ⟨position, hposition⟩ := Option.isSome_iff_exists.mp hp
    have hpos := left_pos_of_nextWord? hword hposition
    omega
  cases drains with
  | stores _ slot _ =>
    have hpos := (slot?_eq_some slot).2
    omega
  | empty hempty =>
    obtain ⟨moves, hledger⟩ := h.booked
    exact phase_advance_of_end hp hl hlast
      (hledger.discardDue_of_writes (hs.holds.resolve_left hempty))
  | discards _ _ _ =>
    obtain ⟨-, hdue, -⟩ := t.discarded_eq
    have hplace : t.discarded.position = t.position ∧ t.discarded.left = t.left ∧
        t.discarded.messagesLeft = t.messagesLeft := by
      unfold discarded
      split <;> exact ⟨rfl, rfl, rfl⟩
    refine phase_advance_of_end ?_ ?_ ?_ hdue
    · rwa [hplace.1]
    · rwa [hplace.2.1]
    · rwa [hplace.2.2]

end Upright

/-! ## Any number of events -/

/-- Events that serve the chain take what is outstanding down by one each, and one more than that
many complete the transaction. -/
theorem Upright.serve {statuses : List Status} (h : t.Upright chain) (hlive : t.phase ≠ .halted)
    (hs : ∀ status ∈ statuses, status.Serves chain) (he : (serve statuses t).Returns t') :
    t'.Upright chain ∧ t'.outstanding ≤ t.outstanding - statuses.length ∧
      (t.outstanding < statuses.length → t'.phase = .transactionComplete) := by
  induction statuses generalizing t with
  | nil =>
    rw [returns_pure.mp he]
    exact ⟨h, Nat.le_refl _, nofun⟩
  | cons status rest ih =>
    obtain ⟨hstatus, hrest⟩ := List.forall_mem_cons.mp hs
    obtain ⟨next, hnext, he⟩ := returns_bind.mp he
    obtain ⟨trace, hexec⟩ := executes_of_returns hnext
    obtain ⟨beats, -, hhandles⟩ := handles_of_executes hexec
    have hbalance := balance_onEvent hnext
    have hmoved := moved_le_onEvent hnext
    have hlive' := h.phase_of_served hlive hstatus hhandles
    obtain ⟨hupright, hout, hcomplete⟩ := ih (h.onEvent hnext) hlive' hrest he
    refine ⟨hupright, ?_, fun hlong => ?_⟩
    · by_cases hnone : t.outstanding = 0
      · omega
      · have hless := h.moved_lt_of_served hlive hstatus hnone hhandles
        rw [List.length_cons]
        omega
    · by_cases hnone : t.outstanding = 0
      · -- the event has completed the transaction, and those after it leave it complete
        have hphase := h.complete_of_served hlive hstatus hnone hhandles
        cases rest with
        | nil =>
          rw [returns_pure.mp he]
          exact hphase
        | cons _ _ =>
          refine hcomplete ?_
          rw [List.length_cons]
          omega
      · have hless := h.moved_lt_of_served hlive hstatus hnone hhandles
        rw [List.length_cons] at hlong
        exact hcomplete (by omega)

/-- Whatever has happened to a transaction, unless it is halted: of events that serve its chain each
moves a byte until all are moved, and after one event for each byte that is outstanding and one more
the transaction is complete, with all its messages moved in full. -/
theorem completes_in_time {σ : Type} (hw : Hardware σ) (s : σ) {chain : List Message}
    (hc : chain ≠ []) (before : List Incident) {statuses : List Status}
    (hs : ∀ status ∈ statuses, status.Serves chain) :
    let o := (undergo before (start chain)).run hw s
    let later := (Transaction.serve statuses o.value).run hw o.state
    o.value.phase ≠ .halted →
      min (Message.cost chain) (o.value.moved + statuses.length) ≤ later.value.moved ∧
      (Message.cost chain - o.value.moved + 1 ≤ statuses.length →
        later.value.phase = .transactionComplete ∧
          later.value.completed = later.value.requested) := by
  intro o later hlive
  have hbefore : (undergo before (start chain)).Returns o.value := returns_value_run hw _ s
  have hafter : (Transaction.serve statuses o.value).Returns later.value :=
    returns_value_run hw _ o.state
  have hupright := (upright_start hc).undergo hbefore
  obtain ⟨hlater, hout, hcomplete⟩ := hupright.serve hlive hs hafter
  have hall := hupright.balance
  have hall' := hlater.balance
  refine ⟨by omega, fun hlong => ?_⟩
  have hphase := hcomplete (by omega)
  exact ⟨hphase, hlater.closed hphase⟩

/-- A byte beyond a single-byte read is still to be thrown away, and the wait was given up meanwhile.
Of three events the first one sends the next address and pays what is due, the second one sends the
last byte, and the third one completes the transaction. -/
theorem completes_in_time_after_single :
    let chain := [Message.read 0x48 [0], Message.write 0x48 [1]]
    let o := (undergo [.event ⟨0⟩, .event ⟨2⟩, .givenUp] (start chain)).run Script.respond {}
    let later := (Transaction.serve [⟨2⟩, ⟨2⟩, ⟨2⟩] o.value).run Script.respond o.state
    chain ≠ [] ∧ (Status.mk 2).Serves chain ∧ o.value.phase ≠ .halted ∧
      o.value.discardDue = true ∧ Message.cost chain - o.value.moved + 1 = 3 ∧
      later.value.phase = .transactionComplete ∧ later.value.completed = 2 := by
  have hserves : (Status.mk 2).Serves [Message.read 0x48 [0], .write 0x48 [1]] :=
    ⟨by decide, by decide, .inl (by decide)⟩
  have hevents : ∀ status ∈ [Status.mk 2, ⟨2⟩, ⟨2⟩],
      status.Serves [Message.read 0x48 [0], .write 0x48 [1]] := by
    intro status hmem
    obtain rfl : status = ⟨2⟩ := by simpa using hmem
    exact hserves
  obtain ⟨-, hcomplete⟩ := completes_in_time Script.respond {} (List.cons_ne_nil _ _)
    [.event ⟨0⟩, .event ⟨2⟩, .givenUp] hevents (by decide)
  obtain ⟨hphase, hcompleted⟩ := hcomplete (by decide)
  exact ⟨nofun, hserves, by decide, by decide, by decide, hphase, hcompleted.trans (by decide)⟩

end Transaction
end TwoWire
