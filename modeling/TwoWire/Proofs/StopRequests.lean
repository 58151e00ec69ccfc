import Mathlib.Data.List.Induction
import TwoWire.Proofs.Ledger
import TwoWire.Proofs.WordBits
import TwoWire.Script
/-!
# Requests for the stop condition

A chain is meant to run as one transaction, so nothing should ask for the stop condition before the
last message. The sending half of an event keeps to this. The receiving half does not look at which
message it serves: every read asks for the stop before its last byte but one, or before its only
byte. So a stop is asked for early exactly if a read that is not the last message gets that far.
-/
namespace TwoWire

/-- Some word of the traffic asks for the stop condition. -/
def AsksStop (beats : List Beat) : Prop :=
  ∃ word ∈ beats.filterMap Beat.pushed?, word &&& FifoWord.lastBit ≠ 0

theorem asksStop_append {beats more : List Beat} :
    AsksStop (beats ++ more) ↔ AsksStop beats ∨ AsksStop more := by
  simp only [AsksStop, List.filterMap_append, List.mem_append]
  constructor
  · rintro ⟨word, h | h, hlast⟩
    · exact .inl ⟨word, h, hlast⟩
    · exact .inr ⟨word, h, hlast⟩
  · rintro (⟨word, h, hlast⟩ | ⟨word, h, hlast⟩)
    · exact ⟨word, .inl h, hlast⟩
    · exact ⟨word, .inr h, hlast⟩

theorem not_asksStop_nil : ¬ AsksStop [] := by
  rintro ⟨word, h, -⟩
  cases h

theorem asksStop_paced (word : FifoWord) : AsksStop [.paced word.bits] ↔ word.isLast := by
  rw [← FifoWord.bits_and_lastBit_ne_zero]
  simp [AsksStop, Beat.pushed?]

theorem asksStop_stopBeats (due : Bool) (byte : UInt8) :
    AsksStop (Controller.stopBeats due ++ [.pulled byte]) ↔ due := by
  have hstop := (FifoWord.bits_and_lastBit_ne_zero .stop).mpr rfl
  cases due <;> simp [AsksStop, Controller.stopBeats, Beat.pushed?, hstop]

namespace Transaction

/-- Message `j` is a read that is not the last message, and not empty. -/
def InnerRead (chain : List Message) (j : Nat) (m : Message) : Prop :=
  j + 1 < chain.length ∧ chain[j]? = some m ∧ m.isRead ∧ 0 < m.length

/-- The byte before which message `j` asks for the stop condition has been moved. -/
def PassedStop (t : Transaction) (j : Nat) (m : Message) : Prop :=
  m.length - 2 < t.dataMoved j m.length

/-- At some event the transaction has not come to its last message and asks for the stop. -/
def StopsEarly {σ : Type} (hw : Hardware σ) (s : σ) (chain : List Message)
    (statuses : List Status) : Prop :=
  ∃ before status after, statuses = before ++ status :: after ∧
    let o := (serve before (start chain)).run hw s
    o.value.current + 1 < chain.length ∧
      AsksStop (traffic ((o.value.onEvent status).run hw o.state).trace)

/-! ## One event -/

/-- A word sent before the last message never asks for the stop condition. -/
theorem isLast_nextWord? {t : Transaction} {word : FifoWord} (hw : t.nextWord? = some word)
    (hm : t.messagesLeft ≠ 1) : word.isLast = false := by
  unfold nextWord? at hw
  split at hw
  · cases hw
  · cases hw
    simp [FifoWord.isLast, hm]
  · split at hw
    · cases hw
    · obtain ⟨byte, -, rfl⟩ := Option.map_eq_some_iff.mp hw
      simp [FifoWord.isLast, hm]

/-- A read asks for the stop before its last byte but one, or before its only byte. -/
theorem stopDue_iff {t : Transaction} {m : Message} {position : Nat} (hleft : 0 < t.left)
    (hl : position + t.left = m.length) : t.stopDue position ↔ position = m.length - 2 := by
  simp only [stopDue, isSingle, Bool.or_eq_true, decide_eq_true_eq]
  omega

variable {chain : List Message} {moves : List Move} {t : Transaction}

/-- The sending half changes nothing that the stop requests depend on. -/
theorem Feeds.inner {status : Status} {out : List Beat} {sending : Bool} {fed : Transaction}
    (h : Ledger chain moves t) (hf : t.Feeds status out sending fed)
    (hc : t.current + 1 < chain.length) :
    ¬ AsksStop out ∧ fed.current = t.current ∧ fed.unrequested = t.unrequested ∧
      ∀ j m, chain[j]? = some m → m.isRead → fed.dataMoved j m.length = t.dataMoved j m.length := by
  cases hf with
  | full _ => exact ⟨not_asksStop_nil, rfl, rfl, fun _ _ _ _ => rfl⟩
  | spent _ _ => exact ⟨not_asksStop_nil, rfl, rfl, fun _ _ _ _ => rfl⟩
  | @sends _ word next =>
    have hlen := h.length_chain
    have hmany : t.messagesLeft ≠ 1 := by
      unfold messagesLeft
      omega
    refine ⟨?_, t.current_sent, t.unrequested_sent, ?_⟩
    · rw [asksStop_paced, isLast_nextWord? next hmany]
      exact Bool.false_ne_true
    · intro j m hm hr
      exact dataMoved_sent m.length next fun _ => h.isRead hm hr

/-- The receiving half asks for the stop as it takes a read past its mark, and at no other time. -/
theorem Drains.inner {status : Status} {inward : List Beat} {drained : Transaction}
    (h : Ledger chain moves t) (hd : t.Drains status inward drained)
    (hc : t.current + 1 < chain.length) (hu : t.unrequested = 0) :
    AsksStop inward ↔
      ∃ j m, InnerRead chain j m ∧ ¬ t.PassedStop j m ∧ drained.PassedStop j m := by
  have hsame : ∀ t' : Transaction, (∀ j m, t'.dataMoved j m = t.dataMoved j m) →
      ¬ ∃ j m, InnerRead chain j m ∧ ¬ t.PassedStop j m ∧ t'.PassedStop j m := by
    rintro t' he ⟨j, m, -, hnot, hpassed⟩
    unfold PassedStop at hnot hpassed
    rw [he] at hpassed
    exact hnot hpassed
  cases hd with
  | empty _ => exact iff_of_false not_asksStop_nil (hsame t fun _ _ => rfl)
  | discards _ slot byte =>
    refine iff_of_false ?_ (hsame t.discarded fun j m => dataMoved_discarded t j m)
    rw [asksStop_stopBeats, hu]
    decide
  | @stores _ position slot byte =>
    obtain ⟨m, hm, hf, hl⟩ := h.current
    obtain ⟨hp, hr, hleft⟩ := (slot?_eq_some_iff hf).mp slot
    rw [Message.isRead_fill] at hr
    rw [hp, Option.getD_some] at hl
    have hat : t.dataMoved t.current m.length = position := by
      simp [dataMoved, hp]
    rw [asksStop_stopBeats, stopDue_iff hleft hl]
    constructor
    · intro hmark
      refine ⟨t.current, m, ⟨hc, hm, hr, by omega⟩, ?_, ?_⟩
      · unfold PassedStop
        omega
      · unfold PassedStop
        rw [dataMoved_received byte _ _ slot, if_pos rfl]
        omega
    · rintro ⟨j, m', ⟨-, hm', -⟩, hnot, hpassed⟩
      unfold PassedStop at hnot hpassed
      rw [dataMoved_received byte _ _ slot] at hpassed
      by_cases hj : j = t.current
      · subst hj
        obtain rfl : m' = m := Option.some.inj (hm'.symm.trans hm)
        rw [if_pos rfl] at hpassed
        omega
      · rw [if_neg hj] at hpassed
        omega

/-- A read before the current message has got past its mark. -/
theorem passedStop_of_lt {j : Nat} {m : Message} (hj : j < t.current) (hl : 0 < m.length) :
    t.PassedStop j m := by
  unfold PassedStop dataMoved
  rw [if_pos hj]
  omega

/-- Before the last message, an event asks for the stop as it takes a read past its mark. -/
theorem Handles.inner {status : Status} {beats : List Beat} {t' : Transaction}
    (h : Ledger chain moves t) (he : t.Handles status beats t')
    (hu : t.current + 1 < chain.length → t.unrequested = 0) :
    t.current + 1 < chain.length ∧ AsksStop beats ↔
      ∃ j m, InnerRead chain j m ∧ ¬ t.PassedStop j m ∧ t'.PassedStop j m := by
  by_cases hc : t.current + 1 < chain.length
  case neg =>
    refine iff_of_false (fun hs => hc hs.1) ?_
    rintro ⟨j, m, ⟨hj, -, -, hl⟩, hnot, -⟩
    exact hnot (passedStop_of_lt (by omega) hl)
  rw [and_iff_right hc]
  cases he with
  | inert _ =>
    refine iff_of_false not_asksStop_nil ?_
    rintro ⟨j, m, -, hnot, hpassed⟩
    exact hnot hpassed
  | halts _ _ =>
    refine iff_of_false not_asksStop_nil ?_
    rintro ⟨j, m, -, hnot, hpassed⟩
    exact hnot hpassed
  | @moves _ _ out inward sending fed drained feeds drains =>
    obtain ⟨hout, hcur, hun, hdata⟩ := feeds.inner h hc
    obtain ⟨sent, -, hfed⟩ := h.feeds feeds
    obtain ⟨pulled, -, hdrained⟩ := hfed.drains drains
    rw [asksStop_append, or_iff_right hout, drains.inner hfed (hcur ▸ hc) (hun.trans (hu hc))]
    refine exists_congr fun j => exists_congr fun m => and_congr_right fun hin => ?_
    obtain ⟨-, hm, hr, -⟩ := hin
    unfold PassedStop
    rw [hdata j m hm hr, hdrained.dataMoved_advance sending hm]

/-- A read that has got past its mark stays past it. -/
theorem Handles.passedStop {status : Status} {beats : List Beat} {t' : Transaction} {j : Nat}
    {m : Message} (h : Ledger chain moves t) (he : t.Handles status beats t')
    (hin : InnerRead chain j m) (hp : t.PassedStop j m) : t'.PassedStop j m := by
  obtain ⟨more, -, h'⟩ := h.handles he
  obtain ⟨-, hm, hr, -⟩ := hin
  unfold PassedStop at hp ⊢
  rw [← h.stored j m hm hr] at hp
  rw [← h'.stored j m hm hr, storedIn_append, List.length_append]
  omega

/-! ## Any number of events -/

theorem stopsEarly_append {σ : Type} (hw : Hardware σ) (s : σ) (chain : List Message)
    (before : List Status) (status : Status) :
    StopsEarly hw s chain (before ++ [status]) ↔
      StopsEarly hw s chain before ∨
        (let o := (serve before (start chain)).run hw s
        o.value.current + 1 < chain.length ∧
          AsksStop (traffic ((o.value.onEvent status).run hw o.state).trace)) := by
  constructor
  · rintro ⟨first, event, after, hsplit, hstop⟩
    rcases concat_eq_append_cons.mp hsplit with ⟨rfl, rfl, -⟩ | ⟨init, -, rfl⟩
    · exact .inr hstop
    · exact .inl ⟨first, event, init, rfl, hstop⟩
  · rintro (⟨first, event, after, rfl, hstop⟩ | hstop)
    · exact ⟨first, event, after ++ [status], by simp, hstop⟩
    · exact ⟨before, status, [], rfl, hstop⟩

/-- As long as nothing unrequested is received before the last message, a transaction asks for the
stop early exactly if it gets to the mark of a read that is not its last message: to the last byte
but one, or to the only byte. -/
theorem stopsEarly_iff {σ : Type} (hw : Hardware σ) (s : σ) (chain : List Message)
    (statuses : List Status)
    (quiet : ∀ before after, statuses = before ++ after →
      let t := ((serve before (start chain)).run hw s).value
      t.current + 1 < chain.length → t.unrequested = 0) :
    StopsEarly hw s chain statuses ↔
      ∃ j m, InnerRead chain j m ∧
        ((serve statuses (start chain)).run hw s).value.PassedStop j m := by
  by_cases hchain : chain = []
  · subst hchain
    refine iff_of_false ?_ ?_
    · rintro ⟨before, status, after, -, hc, -⟩
      exact Nat.not_lt_zero _ hc
    · rintro ⟨j, m, ⟨hj, -⟩, -⟩
      exact Nat.not_lt_zero _ hj
  induction statuses using List.reverseRecOn with
  | nil =>
    refine iff_of_false ?_ ?_
    · rintro ⟨before, status, after, hsplit, -⟩
      simp at hsplit
    · rintro ⟨j, m, -, hmark⟩
      simp [serve, PassedStop] at hmark
  | append_singleton before status ih =>
    have hbefore := ih fun first after hsplit =>
      quiet first (after ++ [status]) (by rw [hsplit, List.append_assoc])
    have hrun := Program.executes_run hw (serve before (start chain)) s
    obtain ⟨moves, -, hledger⟩ := (Ledger.start hchain).books_serve hrun
    let o := (serve before (start chain)).run hw s
    have hevent := Program.executes_run hw (o.value.onEvent status) o.state
    obtain ⟨beats, hcarry, hhandles⟩ := handles_of_executes hevent
    have hlast : ((serve (before ++ [status]) (start chain)).run hw s).value =
        ((o.value.onEvent status).run hw o.state).value := by
      rw [run_serve_concat, Outcome.value_andThen]
    rw [stopsEarly_append, hbefore, hlast]
    change _ ∨ (o.value.current + 1 < chain.length ∧ AsksStop (traffic _)) ↔ _
    rw [hcarry.traffic_eq, hhandles.inner hledger (quiet before [status] rfl)]
    constructor
    · rintro (⟨j, m, hin, hmark⟩ | ⟨j, m, hin, -, hmark⟩)
      · exact ⟨j, m, hin, hhandles.passedStop hledger hin hmark⟩
      · exact ⟨j, m, hin, hmark⟩
    · rintro ⟨j, m, hin, hmark⟩
      by_cases hp : o.value.PassedStop j m
      · exact .inl ⟨j, m, hin, hp⟩
      · exact .inr ⟨j, m, hin, hp, hmark⟩

/-- Nothing unrequested comes before the last of two messages, so the condition decides. -/
theorem stopsEarly_of_mark :
    let chain := [Message.read 0x48 [0, 0], Message.write 0x48 [1]]
    let statuses : List Status := [⟨0⟩, ⟨2⟩]
    (∀ before after, statuses = before ++ after →
      ((serve before (start chain)).run Script.respond {}).value.unrequested = 0) ∧
      StopsEarly Script.respond {} chain statuses := by
  intro chain statuses
  have hquiet : ∀ before after, statuses = before ++ after →
      ((serve before (start chain)).run Script.respond {}).value.unrequested = 0 := by
    intro before after hsplit
    have htake : before = statuses.take before.length := by rw [hsplit, List.take_left]
    have hlen : before.length ≤ 2 := by
      have := congrArg List.length hsplit
      simp [statuses] at this
      omega
    rw [htake]
    revert hlen
    generalize before.length = n
    revert n
    decide
  refine ⟨hquiet, (stopsEarly_iff _ _ _ _ fun before after h _ => hquiet before after h).mpr ?_⟩
  refine ⟨0, .read 0x48 [0, 0], ⟨by decide, rfl, rfl, by decide⟩, ?_⟩
  change _ < _
  decide

/-- A read of two bytes before a write asks for the stop as soon as its first byte is there. -/
theorem early_stop_of_inner_read :
    let chain := [Message.read 0x48 [0, 0], Message.write 0x48 [1]]
    let statuses : List Status := [⟨0⟩, ⟨2⟩]
    Message.Valid chain ∧ (∀ status ∈ statuses, status.fault? = none) ∧
      (∀ n ≤ statuses.length,
        ((serve (statuses.take n) (start chain)).run Script.respond {}).value.unrequested = 0 ∧
        ((serve (statuses.take n) (start chain)).run Script.respond {}).value.discardDue = false) ∧
      StopsEarly Script.respond {} chain statuses := by
  refine ⟨by decide, by decide, by decide, ?_⟩
  exact ⟨[⟨0⟩], ⟨2⟩, [], rfl, by decide, FifoWord.stop.bits, by decide, by decide⟩

end Transaction
end TwoWire
