import TwoWire.Proofs.StaleBytes
/-!
# The count of unrequested bytes

A byte that no message asked for is thrown away and counted, and every second one comes with a
request for the stop condition. The count is a word. As long as fewer bytes are taken than it has
values, a zero at the end of a run says that there was none to be counted. Where it has gone round,
a zero says nothing: the transaction cannot tell as many bytes as that from none at all.
-/
namespace TwoWire

namespace Transaction
open Program

/-! ## Parity -/

theorem odd_iff (count : UInt32) : count % 2 = 1 ↔ count.toNat % 2 = 1 := by
  rw [← UInt32.toNat_inj, UInt32.toNat_mod]
  rfl

/-- One byte more changes the parity, also where the count goes round. -/
theorem odd_add_one (count : UInt32) : (count + 1) % 2 = 1 ↔ ¬ count % 2 = 1 := by
  have hone : (1 : UInt32).toNat = 1 := rfl
  rw [odd_iff, odd_iff, UInt32.toNat_add, hone]
  omega

/-! ## A count of zero -/

/-- The event finds a byte to be taken and no room for the address that is pending. -/
structure Intrudes (status : Status) (t : Transaction) : Prop where
  full : status.has .writeFull
  announced : status.has .readFull
  clean : status.fault? = none
  live : t.isInert = false
  pending : t.position = none
  settled : t.discardDue = false

variable {status : Status} {t t' : Transaction}

/-- The byte is counted, and taken with a stop request if the count is odd. -/
theorem Intrudes.handles {beats : List Beat} (h : Intrudes status t)
    (he : t.Handles status beats t') :
    t' = { t with unrequested := t.unrequested + 1 } ∧
      beats.filterMap Beat.pushed? =
        if t.unrequested % 2 = 1 then [FifoWord.stop.bits] else [] := by
  cases he with
  | inert hinert =>
    rw [h.live] at hinert
    cases hinert
  | halts _ faulty =>
    rw [h.clean] at faulty
    cases faulty
  | moves _ _ feeds drains =>
    cases feeds with
    | spent hfree _ => exact absurd h.full hfree
    | sends hfree _ => exact absurd h.full hfree
    | full _ =>
      cases drains with
      | empty hempty => exact absurd h.announced hempty
      | stores _ slot _ =>
        rw [slot?_of_pending h.pending] at slot
        cases slot
      | discards _ _ byte =>
        constructor
        · simp [advance, discarded, h.settled, h.pending]
        · by_cases hodd : t.unrequested % 2 = 1 <;> simp [hodd, Controller.stopBeats, Beat.pushed?]

/-- Any number of them are counted, and every second one is taken with a stop request. -/
theorem Intrudes.serve {σ : Type} (hw : Hardware σ) (s : σ) (h : Intrudes status t)
    (hnone : t.unrequested = 0) (n : Nat) :
    let o := (Transaction.serve (List.replicate n status) t).run hw s
    o.value = { t with unrequested := UInt32.ofNat n } ∧
      ∃ beats, Carries o.trace beats ∧
        beats.filterMap Beat.pushed? = List.replicate (n / 2) FifoWord.stop.bits := by
  induction n with
  | zero =>
    refine ⟨?_, [], .nil, rfl⟩
    change t = { t with unrequested := 0 }
    rw [← hnone]
  | succ n ih =>
    obtain ⟨hvalue, beats, hcarry, hpushed⟩ := ih
    intro o
    let first := (Transaction.serve (List.replicate n status) t).run hw s
    have hrun : o = first.andThen ((first.value.onEvent status).run hw first.state) := by
      change (Transaction.serve (List.replicate (n + 1) status) t).run hw s = _
      rw [List.replicate_succ', run_serve_concat]
    obtain ⟨more, hmore, hhandles⟩ :=
      handles_of_executes (executes_run hw (first.value.onEvent status) first.state)
    have hfirst : first.value = { t with unrequested := UInt32.ofNat n } := hvalue
    have hnext : Intrudes status first.value := by
      rw [hfirst]
      exact ⟨h.full, h.announced, h.clean, h.live, h.pending, h.settled⟩
    obtain ⟨hlast, hasked⟩ := hnext.handles hhandles
    rw [hfirst] at hasked
    have hodd : UInt32.ofNat n % 2 = 1 ↔ n % 2 = 1 := by
      rw [odd_iff, UInt32.toNat_ofNat']
      omega
    rw [hrun]
    refine ⟨?_, beats ++ more, hcarry.append hmore, ?_⟩
    · rw [Outcome.value_andThen, hlast, hfirst, UInt32.ofNat_add]
      rfl
    · rw [List.filterMap_append, hpushed, hasked]
      by_cases h1 : n % 2 = 1
      · have hhalf : (n + 1) / 2 = n / 2 + 1 := by omega
        rw [if_pos (hodd.mpr h1), hhalf, List.replicate_succ']
      · have hhalf : (n + 1) / 2 = n / 2 := by omega
        rw [if_neg (mt hodd.mp h1), hhalf, List.append_nil]

/-- After as many of them as the count has values the transaction is as it was before the first one,
though half of them were taken with a stop request. -/
theorem Intrudes.goes_round {σ : Type} (hw : Hardware σ) (s : σ) (h : Intrudes status t)
    (hnone : t.unrequested = 0) :
    let o := (Transaction.serve (List.replicate UInt32.size status) t).run hw s
    o.value = t ∧ (traffic o.trace).filterMap Beat.pushed? =
      List.replicate (UInt32.size / 2) FifoWord.stop.bits := by
  obtain ⟨hvalue, beats, hcarry, hpushed⟩ := h.serve hw s hnone UInt32.size
  refine ⟨?_, ?_⟩
  · rw [hvalue, UInt32.ofNat_size, ← hnone]
  · rw [hcarry.traffic_eq, hpushed]

end Transaction
end TwoWire
