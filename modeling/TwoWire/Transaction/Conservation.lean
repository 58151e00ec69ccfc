import TwoWire.Program.Returns
import TwoWire.Transaction
/-!
# What is left to move

Every byte of the chain is either moved or outstanding. No event changes the sum of the two,
whatever the hardware answers, and none takes a moved byte back, so a transaction can make progress
only as often as bytes are outstanding.
-/
namespace TwoWire.Transaction
open Program

/-- Address and data bytes of the chain that are still to be moved. -/
def outstanding (t : Transaction) : Nat :=
  (if t.position.isSome then 0 else 1) + t.left + Message.cost (t.chain.drop (t.current + 1))

@[simp] theorem outstanding_halt (t : Transaction) (fault : Fault) :
    (t.halt fault).outstanding = t.outstanding := rfl

@[simp] theorem outstanding_discarded (t : Transaction) :
    t.discarded.outstanding = t.outstanding := by
  unfold discarded
  split <;> rfl

@[simp] theorem moved_discarded (t : Transaction) : t.discarded.moved = t.moved := by
  unfold discarded
  split <;> rfl

theorem left_pos_of_nextWord? {t : Transaction} {word : FifoWord} {position : Nat}
    (h : t.nextWord? = some word) (hp : t.position = some position) : 0 < t.left := by
  unfold nextWord? at h
  rw [hp] at h
  cases hm : t.chain[t.current]? with
  | none => simp [hm] at h
  | some message =>
    simp only [hm] at h
    by_cases hl : t.left = 0
    · simp [hl] at h
    · omega

theorem balance_sent {t : Transaction} {word : FifoWord} (h : t.nextWord? = some word) :
    t.sent.moved + t.sent.outstanding = t.moved + t.outstanding := by
  cases hp : t.position with
  | none =>
    simp [sent, outstanding, hp]
    omega
  | some position =>
    have := left_pos_of_nextWord? h hp
    simp [sent, outstanding, hp]
    omega

theorem slot?_eq_some {t : Transaction} {position : Nat} (h : t.slot? = some position) :
    t.position = some position ∧ 0 < t.left := by
  unfold slot? at h
  split at h
  · split at h
    · simp_all
    · cases h
  · cases h

theorem cost_drop_modify (chain : List Message) (i k : Nat) (f : Message → Message)
    (hf : ∀ m, (f m).length = m.length) :
    Message.cost ((chain.modify i f).drop k) = Message.cost (chain.drop k) := by
  refine Message.cost_congr ?_
  rw [List.map_drop, List.map_drop]
  congr 1
  refine List.ext_getElem (by simp) fun n h₁ h₂ => ?_
  simp only [List.getElem_map, List.getElem_modify]
  split
  · exact hf _
  · rfl

theorem cost_drop {chain : List Message} {i : Nat} (h : i < chain.length) :
    Message.cost (chain.drop i) = 1 + chain[i].length + Message.cost (chain.drop (i + 1)) := by
  rw [List.drop_eq_getElem_cons h]
  rfl

theorem balance_received {t : Transaction} {position : Nat} (byte : UInt8)
    (h : t.slot? = some position) :
    (t.received position byte).moved + (t.received position byte).outstanding
      = t.moved + t.outstanding := by
  obtain ⟨hp, hl⟩ := slot?_eq_some h
  simp [received, outstanding, hp, cost_drop_modify]
  omega

theorem balance_advance (t : Transaction) (sending : Bool) :
    (t.advance sending).moved + (t.advance sending).outstanding = t.moved + t.outstanding := by
  unfold advance
  split
  case isFalse => rfl
  rename_i hp
  split
  case isFalse => rfl
  rename_i hl
  split
  case isFalse =>
    split
    · rfl
    · split <;> rfl
  rename_i hm
  have hc : t.current + 1 < t.chain.length := by
    unfold messagesLeft at hm
    omega
  simp [turn, outstanding, hp, hl, List.getElem?_eq_getElem hc, cost_drop hc]

theorem balance_feedOn {t : Transaction} {status : Status} {fed : Bool × Transaction}
    (h : (t.feedOn status).Returns fed) :
    fed.2.moved + fed.2.outstanding = t.moved + t.outstanding := by
  unfold feedOn at h
  split at h
  · simp_all
  · unfold feed at h
    split at h
    · simp_all
    · rename_i word hw
      simp only [returns_bind, returns_pure] at h
      obtain ⟨_, _, rfl⟩ := h
      exact balance_sent hw

theorem balance_drainOn {t t' : Transaction} {status : Status}
    (h : (t.drainOn status).Returns t') :
    t'.moved + t'.outstanding = t.moved + t.outstanding := by
  unfold drainOn at h
  split at h
  · unfold drain at h
    split at h
    · rename_i position hs
      simp only [returns_bind, returns_pure] at h
      obtain ⟨_, _, byte, _, rfl⟩ := h
      exact balance_received byte hs
    · simp only [returns_bind, returns_pure] at h
      obtain ⟨_, _, _, _, rfl⟩ := h
      simp
  · simp_all

/-- Moved and outstanding bytes have the same sum before and after an event. -/
theorem balance_onEvent {t t' : Transaction} {status : Status}
    (h : (t.onEvent status).Returns t') :
    t'.moved + t'.outstanding = t.moved + t.outstanding := by
  unfold onEvent at h
  split at h
  · simp_all
  · split at h
    · simp only [returns_pure] at h
      subst h
      rfl
    · simp only [returns_bind, returns_pure] at h
      obtain ⟨fed, hf, drained, hd, rfl⟩ := h
      rw [balance_advance, balance_drainOn hd, balance_feedOn hf]

@[simp] theorem moved_advance (t : Transaction) (sending : Bool) :
    (t.advance sending).moved = t.moved := by
  unfold advance
  repeat' split
  all_goals rfl

theorem moved_le_sent (t : Transaction) : t.moved ≤ t.sent.moved := by
  unfold sent
  split <;> simp

theorem moved_le_feedOn {t : Transaction} {status : Status} {fed : Bool × Transaction}
    (h : (t.feedOn status).Returns fed) : t.moved ≤ fed.2.moved := by
  unfold feedOn at h
  split at h
  · simp_all
  · unfold feed at h
    split at h
    · simp_all
    · simp only [returns_bind, returns_pure] at h
      obtain ⟨_, _, rfl⟩ := h
      exact moved_le_sent t

theorem moved_le_drainOn {t t' : Transaction} {status : Status}
    (h : (t.drainOn status).Returns t') : t.moved ≤ t'.moved := by
  unfold drainOn at h
  split at h
  · unfold drain at h
    split at h
    · simp only [returns_bind, returns_pure] at h
      obtain ⟨_, _, byte, _, rfl⟩ := h
      exact Nat.le_succ _
    · simp only [returns_bind, returns_pure] at h
      obtain ⟨_, _, _, _, rfl⟩ := h
      simp
  · simp_all

/-- No event takes a moved byte back. -/
theorem moved_le_onEvent {t t' : Transaction} {status : Status}
    (h : (t.onEvent status).Returns t') : t.moved ≤ t'.moved := by
  unfold onEvent at h
  split at h
  · simp_all
  · split at h
    · simp only [returns_pure] at h
      subst h
      exact Nat.le_refl _
    · simp only [returns_bind, returns_pure] at h
      obtain ⟨fed, hf, drained, hd, rfl⟩ := h
      rw [moved_advance]
      exact Nat.le_trans (moved_le_feedOn hf) (moved_le_drainOn hd)

end TwoWire.Transaction
