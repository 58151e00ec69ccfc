import TwoWire.Proofs.Ledger
/-!
# Undisturbed progress

A transaction runs as long as nothing fails and nothing comes in that it did not ask for. What it
does next is then the first stage that lies ahead of it, and doing that keeps it running.
-/
namespace TwoWire.Transaction

/-- Nothing has failed, nothing is to be thrown away, and a message that has been moved in full is
left behind, unless it is the last one. -/
structure Running (t : Transaction) : Prop where
  fits : t.Fits
  phase : t.phase ≠ .halted
  fault : t.fault = none
  discardDue : t.discardDue = false
  unrequested : t.unrequested = 0
  turned : t.position.isSome → t.left = 0 → t.messagesLeft = 1

theorem running_start {chain : List Message} (h : chain ≠ []) : (start chain).Running where
  fits := fits_start h
  phase := nofun
  fault := rfl
  discardDue := rfl
  unrequested := rfl
  turned := nofun

@[simp] theorem fault_sent (t : Transaction) : t.sent.fault = t.fault := by
  unfold sent
  split <;> rfl

@[simp] theorem phase_sent (t : Transaction) : t.sent.phase = t.phase := by
  unfold sent
  split <;> rfl

@[simp] theorem fault_advance (t : Transaction) (sending : Bool) :
    (t.advance sending).fault = t.fault := by
  unfold advance
  repeat' split
  all_goals rfl

theorem phase_advance {t : Transaction} (sending : Bool) (h : t.phase ≠ .halted) :
    (t.advance sending).phase ≠ .halted := by
  unfold advance turn
  repeat' split
  all_goals first | exact h | exact nofun

/-- After an event only a last message can be current and moved in full. -/
theorem turned_advance {t : Transaction} (sending : Bool) (h : t.Fits) :
    (t.advance sending).position.isSome → (t.advance sending).left = 0 →
      (t.advance sending).messagesLeft = 1 := by
  obtain ⟨m, hm, -⟩ := h
  obtain ⟨hlt, -⟩ := List.getElem?_eq_some_iff.mp hm
  unfold advance
  split
  case isFalse hp => exact fun h => absurd h hp
  split
  case isFalse hl => exact fun _ h => absurd h hl
  split
  case isTrue => exact nofun
  rename_i hone
  have hlast : t.messagesLeft = 1 := by
    unfold messagesLeft at hone ⊢
    omega
  split
  · exact fun _ _ => hlast
  · split <;> exact fun _ _ => hlast

namespace Running

variable {t : Transaction}

theorem isInert (h : t.Running) : t.isInert = false := by
  obtain ⟨m, hm, -⟩ := h.fits
  obtain ⟨hlt, -⟩ := List.getElem?_eq_some_iff.mp hm
  have hnot : ¬ t.chain.length ≤ t.current := by omega
  unfold Transaction.isInert
  rw [decide_eq_false]
  rintro (hp | hl)
  · exact h.phase hp
  · exact hnot hl

/-- At the end of the current message nothing is left of the chain, unless an address is due. -/
theorem next_of_end (h : t.Running) (hleft : t.left = 0) :
    (∃ word, t.nextWord? = some word) ∨ (t.nextWord? = none ∧ t.ahead = []) := by
  obtain ⟨m, hm, -⟩ := h.fits
  cases hp : t.position with
  | none => exact .inl ⟨_, nextWord?_of_none hm hp⟩
  | some position =>
    have hsome : t.position.isSome := by rw [hp]; rfl
    right
    constructor
    · rw [nextWord?_of_some hm hp, if_pos hleft]
    · exact ahead_eq_nil h.fits (h.turned hsome hleft) hsome hleft

/-- The place in the current message decides what lies ahead. -/
theorem next_cases (h : t.Running) :
    (∃ word, t.nextWord? = some word) ∨
      (t.nextWord? = none ∧ ∃ position, t.slot? = some position) ∨
      (t.nextWord? = none ∧ t.ahead = []) := by
  by_cases hleft : t.left = 0
  · rcases h.next_of_end hleft with hword | hend
    · exact .inl hword
    · exact .inr (.inr hend)
  · rcases h.fits.next_of_left hleft with hword | hslot
    · exact .inl hword
    · exact .inr (.inl hslot)

theorem nextWord?_eq (h : t.Running) {word : FifoWord} {rest : List Stage}
    (ha : t.ahead = .word word :: rest) : t.nextWord? = some word := by
  rcases h.next_cases with ⟨word', hw⟩ | ⟨-, position, hs⟩ | ⟨-, hnil⟩
  · rw [ahead_sent h.fits hw] at ha
    cases ha
    exact hw
  · rw [ahead_received 0 h.fits hs] at ha
    cases ha
  · rw [hnil] at ha
    cases ha

theorem slot?_eq (h : t.Running) {j position : Nat} {rest : List Stage}
    (ha : t.ahead = .slot j position :: rest) : t.nextWord? = none ∧ t.slot? = some position := by
  refine ⟨?_, slot?_of_ahead h.fits ha⟩
  cases hword : t.nextWord? with
  | none => rfl
  | some word =>
    rw [ahead_sent h.fits hword] at ha
    cases ha

theorem nextWord?_eq_none (h : t.Running) (ha : t.ahead = []) : t.nextWord? = none := by
  rcases h.next_cases with ⟨word, hw⟩ | ⟨hw, -⟩ | ⟨hw, -⟩
  · rw [ahead_sent h.fits hw] at ha
    cases ha
  · exact hw
  · exact hw

/-- A running transaction is complete exactly when nothing lies ahead. -/
theorem completed_iff (h : t.Running) :
    t.completed = t.chain.length ↔ t.ahead = [] := by
  obtain ⟨m, hm, -⟩ := h.fits
  obtain ⟨hlt, -⟩ := List.getElem?_eq_some_iff.mp hm
  unfold completed
  constructor
  · intro hc
    have hdone : t.position.isSome ∧ t.left = 0 := by
      split at hc
      · rename_i hcond
        exact hcond.2
      · omega
    rcases h.next_of_end hdone.2 with ⟨word, hword⟩ | ⟨-, hnil⟩
    · obtain ⟨position, hp⟩ := Option.isSome_iff_exists.mp hdone.1
      have := left_pos_of_nextWord? hword hp
      omega
    · exact hnil
  · intro ha
    obtain ⟨hlast, hposition, hleft⟩ := completed_of_ahead_nil h.fits ha
    rw [if_pos ⟨hlt, hposition, hleft⟩, hlast]

theorem advance (h : t.Running) (sending : Bool) : (t.advance sending).Running where
  fits := (ahead_advance sending h.fits).1
  phase := phase_advance sending h.phase
  fault := by rw [fault_advance, h.fault]
  discardDue := by rw [discardDue_advance, h.discardDue]
  unrequested := by rw [unrequested_advance, h.unrequested]
  turned := turned_advance sending h.fits

/-- Sending the next word keeps a transaction running and takes it one stage on. -/
theorem send (h : t.Running) {word : FifoWord} (hw : t.nextWord? = some word) :
    (t.sent.advance true).Running ∧ t.ahead = .word word :: (t.sent.advance true).ahead := by
  have hfits := fits_sent h.fits hw
  obtain ⟨hfits', hahead⟩ := ahead_advance true hfits
  refine ⟨⟨hfits', phase_advance true ?_, ?_, ?_, ?_, turned_advance true hfits⟩, ?_⟩
  · rw [phase_sent]
    exact h.phase
  · rw [fault_advance, fault_sent, h.fault]
  · rw [discardDue_advance, discardDue_sent, h.discardDue]
  · rw [unrequested_advance, unrequested_sent, h.unrequested]
  · rw [hahead, ahead_sent h.fits hw]

/-- Storing a byte of a longer read does so, too. -/
theorem store (h : t.Running) {position : Nat} (byte : UInt8) (hs : t.slot? = some position)
    (hlong : t.isSingle position = false) :
    ((t.received position byte).advance false).Running ∧
      t.ahead = .slot t.current position :: ((t.received position byte).advance false).ahead := by
  have hfits := fits_received byte h.fits hs
  obtain ⟨hfits', hahead⟩ := ahead_advance false hfits
  refine ⟨⟨hfits', phase_advance false h.phase, ?_, ?_, ?_, turned_advance false hfits⟩, ?_⟩
  · rw [fault_advance]
    exact h.fault
  · rw [discardDue_advance, received, hlong, h.discardDue]
    rfl
  · rw [unrequested_advance]
    exact h.unrequested
  · rw [hahead, ahead_received byte h.fits hs]

end Running

/-! ## One byte too many -/

/-- A byte beyond a single-byte read is still to be thrown away, and the transaction runs on after
that. -/
structure Owing (t : Transaction) : Prop where
  due : t.discardDue = true
  running : t.discarded.Running

namespace Owing

variable {t : Transaction}

theorem discarded_eq (h : t.Owing) : t.discarded = { t with discardDue := false } := if_pos h.due

theorem isInert (h : t.Owing) : t.isInert = false := by
  have hinert := h.running.isInert
  rw [h.discarded_eq] at hinert
  exact hinert

theorem unrequested (h : t.Owing) : t.unrequested = 0 := by
  have hunrequested := h.running.unrequested
  rw [h.discarded_eq] at hunrequested
  exact hunrequested

end Owing

/-- Storing the only byte of a read leaves one to be thrown away. -/
theorem Running.owe {t : Transaction} (h : t.Running) {position : Nat} (byte : UInt8)
    (hs : t.slot? = some position) (hsingle : t.isSingle position = true) :
    ((t.received position byte).advance false).Owing := by
  have hfits := fits_received byte h.fits hs
  have hdue : ((t.received position byte).advance false).discardDue = true := by
    rw [discardDue_advance]
    change (t.discardDue || t.isSingle position) = true
    rw [hsingle, Bool.or_true]
  refine ⟨hdue, ?_⟩
  unfold discarded
  rw [if_pos hdue]
  refine ⟨(ahead_advance false hfits).1, phase_advance false h.phase, ?_, rfl, ?_,
    turned_advance false hfits⟩
  · change ((t.received position byte).advance false).fault = none
    rw [fault_advance]
    exact h.fault
  · change ((t.received position byte).advance false).unrequested = 0
    rw [unrequested_advance]
    exact h.unrequested

end TwoWire.Transaction
