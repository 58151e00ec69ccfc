import TwoWire.Master
import TwoWire.Proofs.Execution
/-!
# One attempt after another

A call that is tried again is a row of attempts. Whatever the board does, an attempt is either the
last one, and then its verdict is the answer, or it is followed by a single pause and by the rest of
the row on the chain that it handed back.
-/
namespace TwoWire

namespace Answer

variable {requested : Nat} {result : Except Error Nat}

@[simp] theorem verdict_eq_ok : verdict requested result = .ok () ↔ result = .ok requested := by
  cases result with
  | ok completed =>
    simp only [verdict]
    split <;> simp_all
  | error error => simp [verdict]

@[simp] theorem verdict_eq_invalidChain :
    verdict requested result = .error .invalidChain ↔ result = .error .invalidChain := by
  cases result with
  | ok completed =>
    simp only [verdict]
    split <;> simp
  | error error => simp [verdict]

/-- No other attempt follows this one: all messages went through, or the chain is invalid. -/
def Final (requested : Nat) (result : Except Error Nat) : Prop :=
  result = .ok requested ∨ result = .error .invalidChain

theorem not_final_ok {completed : Nat} (h : completed ≠ requested) :
    ¬ Final requested (.ok completed) := by
  simp [Final, h]

end Answer

namespace Master
open Program

variable {σ : Type} {hw : Hardware σ} {s : σ} {m : Master} {chain : List Message}

/-- The pause before another attempt. -/
def pause : Access := .delay (retryMicros * 1000)

variable {o : Outcome σ (Answer Nat)}

/-- An attempt ends the row if it is final or if none is left. -/
theorem run_persist_last (ho : (m.transact chain).run hw s = o) (retries : Nat) {left : Nat}
    (h : Answer.Final chain.length o.value.result ∨ left = 0) :
    let all := (m.persist retries left chain).run hw s
    all.value = ⟨Answer.verdict chain.length o.value.result, o.value.chain⟩ ∧
      all.state = o.state ∧ all.trace = o.trace := by
  unfold persist
  rw [run_bind, ho]
  cases hverdict : Answer.verdict chain.length o.value.result with
  | ok _ => simp
  | error error =>
    by_cases hinvalid : error = .invalidChain
    · subst hinvalid
      simp
    · have hleft : left = 0 := by
        apply h.resolve_left
        rintro (hok | herror)
        · rw [Answer.verdict_eq_ok.mpr hok] at hverdict
          cases hverdict
        · rw [Answer.verdict_eq_invalidChain.mpr herror] at hverdict
          exact hinvalid (Except.error.inj hverdict).symm
      subst hleft
      simp

/-- Any other attempt is followed by a pause and the rest of the row. -/
theorem run_persist_again (ho : (m.transact chain).run hw s = o)
    (h : ¬ Answer.Final chain.length o.value.result) (retries left : Nat) :
    let all := (m.persist retries (left + 1) chain).run hw s
    let rest := (m.persist retries left o.value.chain).run hw (hw pause o.state).2
    all.value = rest.value ∧ all.state = rest.state ∧
      all.trace = o.trace ++ ⟨pause, ()⟩ :: rest.trace := by
  rw [persist, run_bind, ho]
  cases hverdict : Answer.verdict chain.length o.value.result with
  | ok _ => exact absurd (.inl (Answer.verdict_eq_ok.mp hverdict)) h
  | error error =>
    have hother : error ≠ .invalidChain := by
      rintro rfl
      exact h (.inr (Answer.verdict_eq_invalidChain.mp hverdict))
    simp [pause]

/-! ## The end of a row -/

variable {attempt : Answer Nat} {s' : σ}

theorem ends_persist_last (hattempt : (m.transact chain).ends hw s = (attempt, s'))
    (retries : Nat) {left : Nat} (h : Answer.Final chain.length attempt.result ∨ left = 0) :
    (m.persist retries left chain).ends hw s =
      (⟨Answer.verdict chain.length attempt.result, attempt.chain⟩, s') := by
  obtain ⟨rfl, rfl⟩ := run_of_ends hattempt
  obtain ⟨hvalue, hstate, -⟩ := run_persist_last rfl retries h
  rw [ends, hvalue, hstate]

/-- An attempt that gets every message through is the last one. -/
theorem ends_persist_done {answered : List Message}
    (h : (m.transact chain).ends hw s = (⟨.ok chain.length, answered⟩, s'))
    (retries left : Nat) :
    (m.persist retries left chain).ends hw s = (⟨.ok (), answered⟩, s') := by
  have hok : Answer.verdict chain.length (.ok chain.length) = .ok () :=
    Answer.verdict_eq_ok.mpr rfl
  rw [ends_persist_last h retries (.inl (.inl rfl)), hok]

theorem ends_persist_again (hattempt : (m.transact chain).ends hw s = (attempt, s'))
    (h : ¬ Answer.Final chain.length attempt.result) (retries left : Nat) :
    (m.persist retries (left + 1) chain).ends hw s =
      (m.persist retries left attempt.chain).ends hw (hw pause s').2 := by
  obtain ⟨rfl, rfl⟩ := run_of_ends hattempt
  obtain ⟨hvalue, hstate, -⟩ := run_persist_again rfl h retries left
  rw [ends, hvalue, hstate]
  rfl

theorem ends_transactRetrying (hm : m.installed = true) (hw : Hardware σ) (s : σ)
    (retries : Nat) (chain : List Message) :
    (m.transactRetrying retries chain).ends hw s =
      (m.persist retries retries chain).ends hw s := by
  rw [transactRetrying, if_pos hm]

end Master
end TwoWire
