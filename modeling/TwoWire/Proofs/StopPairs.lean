import TwoWire.Proofs.StopRequests
import TwoWire.Proofs.Unrequested
/-!
# Stop requests in a row

A byte is taken from the read queue with or without a request for the stop condition in front of it.
A second request in a row is one too many for the controller, unless an address has gone out since the
first one. The receiving half asks on two grounds that know nothing of each other: the end of a read
comes near, or the count of unrequested bytes is odd. They meet at a read of a single byte.
-/
namespace TwoWire

namespace Beat

/-- The beat is an address that goes out. -/
def isAddress (beat : Beat) : Bool := beat.pushed?.any (· &&& FifoWord.addressBit != 0)

end Beat

/-- A byte is taken in the traffic. -/
def Takes (beats : List Beat) : Prop := ∃ byte, .pulled byte ∈ beats

/-- A bare stop request goes out in the traffic. -/
def AsksBare (beats : List Beat) : Prop := .bare FifoWord.stop.bits ∈ beats

/-- The traffic of two events that take a byte each, with no byte taken between them and no address
sent since the first one. -/
structure InARow (first between second : List Beat) : Prop where
  opens : Takes first
  rests : ¬ Takes between
  closes : Takes second
  unaddressed : ∀ beat ∈ between ++ second, Beat.isAddress beat = false

theorem takes_append {beats more : List Beat} : Takes (beats ++ more) ↔ Takes beats ∨ Takes more := by
  simp only [Takes, List.mem_append, exists_or]

theorem asksBare_stopBeats (due : Bool) (byte : UInt8) :
    AsksBare (Controller.stopBeats due ++ [.pulled byte]) ↔ due := by
  cases due <;> simp [AsksBare, Controller.stopBeats]

namespace FifoWord

/-- An address word is told by its mark. -/
theorem isAddress_address (target : UInt8) (reading last : Bool) :
    (Beat.paced (address target reading last).bits).isAddress = true := by
  simp only [Beat.isAddress, Beat.pushed?, Option.any_some, address_bits]
  decide

end FifoWord

namespace Transaction
open Program

/-- The next byte to be taken comes with a stop request in front of it. -/
def nextStop (t : Transaction) : Bool :=
  match t.slot? with
  | some position => t.stopDue position
  | none => t.unrequested % 2 = 1

/-- From `t` to `t'` a byte of a single-byte read is taken: its only one, or the one beyond it that
is due to be thrown away. -/
def TakesSingle (chain : List Message) (t t' : Transaction) : Prop :=
  (∃ j m, chain[j]? = some m ∧ m.isRead ∧ m.length = 1 ∧
    t.dataMoved j m.length < t'.dataMoved j m.length) ∨
  t.discardDue = true ∧ t'.discardDue = false

variable {chain : List Message} {moves : List Move} {t t' : Transaction} {status : Status}

/-! ## What the next stop request depends on -/

theorem nextStop_of_slot {position : Nat} (h : t.slot? = some position) :
    t.nextStop = t.stopDue position := by
  rw [nextStop, h]

theorem nextStop_of_none (h : t.slot? = none) : t.nextStop = decide (t.unrequested % 2 = 1) := by
  rw [nextStop, h]

theorem slot?_of_left_eq_zero (h : t.left = 0) : t.slot? = none := by
  unfold slot?
  split
  · rw [if_neg (by omega)]
  · rfl

/-- To turn to the next message, or to settle the phase, changes nothing about it. -/
theorem nextStop_advance (t : Transaction) (sending : Bool) :
    (t.advance sending).nextStop = t.nextStop := by
  unfold advance
  split
  case isFalse => rfl
  split
  case isFalse => rfl
  rename_i hleft
  split
  case isTrue =>
    rw [nextStop_of_none (slot?_of_pending rfl), nextStop_of_none (slot?_of_left_eq_zero hleft)]
    rfl
  split
  · rfl
  split <;> rfl

/-- Nor does a word that is not an address. -/
theorem Feeds.nextStop {out : List Beat} {sending : Bool} {fed : Transaction}
    (hfits : t.Fits) (hf : t.Feeds status out sending fed)
    (hout : ∀ beat ∈ out, beat.isAddress = false) : fed.nextStop = t.nextStop := by
  cases hf with
  | full _ => rfl
  | spent _ _ => rfl
  | @sends _ word next =>
    obtain ⟨m, hm, -⟩ := hfits
    cases hp : t.position with
    | none =>
      rw [nextWord?_of_none hm hp] at next
      cases next
      have haddress := hout _ List.mem_cons_self
      rw [Message.addressWord, FifoWord.isAddress_address] at haddress
      cases haddress
    | some position =>
      have hwrite : m.isRead = false := by
        rw [← Bool.not_eq_true]
        intro hr
        rw [nextWord?_of_read hm hr hp] at next
        cases next
      have hno : ∀ u : Transaction, u.chain[u.current]? = some m → u.slot? = none := by
        intro u hu
        refine Option.eq_none_iff_forall_ne_some.mpr fun position hslot => ?_
        have hread := ((slot?_eq_some_iff hu).mp hslot).2.1
        rw [hwrite] at hread
        cases hread
      rw [nextStop_of_none (hno t hm),
        nextStop_of_none (hno t.sent (by rw [chain_sent, current_sent, hm])), unrequested_sent]

/-! ## One event -/

theorem Feeds.not_takes {out : List Beat} {sending : Bool} {fed : Transaction}
    (hf : t.Feeds status out sending fed) : ¬ Takes out ∧ ¬ AsksBare out := by
  cases hf <;> simp [Takes, AsksBare]

/-- A byte is taken with a stop request exactly if one was due. -/
theorem Drains.asksBare_iff {inward : List Beat} {drained : Transaction}
    (hd : t.Drains status inward drained) (htakes : Takes inward) :
    AsksBare inward ↔ t.nextStop := by
  cases hd with
  | empty _ => exact absurd htakes (by simp [Takes])
  | stores _ slot byte => rw [asksBare_stopBeats, nextStop_of_slot slot]
  | discards _ slot byte => rw [asksBare_stopBeats, nextStop_of_none slot]

/-- After the only byte of a read nothing has a slot, after the last byte but one a slot remains that
asks for nothing. -/
theorem nextStop_received {position : Nat} (byte : UInt8) (hfits : t.Fits)
    (hslot : t.slot? = some position) (hdue : t.stopDue position = true) :
    (t.received position byte).nextStop = true ↔
      t.unrequested % 2 = 1 ∧ t.isSingle position = true := by
  obtain ⟨m, hm, -⟩ := hfits
  obtain ⟨hp, hr, hleft⟩ := (slot?_eq_some_iff hm).mp hslot
  by_cases hone : t.left = 1
  · have hend : (t.received position byte).left = 0 := by
      change t.left - 1 = 0
      omega
    have hsingle : t.isSingle position = true := by
      rw [stopDue, hone] at hdue
      simpa using hdue
    rw [nextStop_of_none (slot?_of_left_eq_zero hend), decide_eq_true_iff, hsingle]
    exact (and_iff_left rfl).symm
  · have hsingle : t.isSingle position = false := by simp [isSingle, hone]
    have htwo : t.left = 2 := by simpa [stopDue, hsingle] using hdue
    have hchain : (t.received position byte).chain[(t.received position byte).current]? =
        some (m.store position byte) := by
      have hget := getElem?_chain_received t position byte
      rwa [hm] at hget
    have hread : (m.store position byte).isRead = true := by
      unfold Message.isRead Message.store
      rwa [Payload.isRead_store]
    have hnext : (t.received position byte).slot? = some (position + 1) := by
      refine (slot?_eq_some_iff hchain).mpr ⟨rfl, hread, ?_⟩
      change 0 < t.left - 1
      omega
    have hlast : (t.received position byte).left = 1 := by
      change t.left - 1 = 1
      omega
    rw [nextStop_of_slot hnext, hsingle, stopDue, isSingle, hlast]
    simp

/-- What throws a byte away without a slot leaves no slot either. -/
theorem nextStop_discarded (hslot : t.slot? = none) :
    t.discarded.nextStop = true ↔
      (if t.discardDue then t.unrequested else t.unrequested + 1) % 2 = 1 := by
  have hnone : t.discarded.slot? = none := by
    unfold discarded
    split <;> exact hslot
  rw [nextStop_of_none hnone, decide_eq_true_iff, t.discarded_eq.2.2]

/-- A byte is taken with a stop request, and another request is due right after it, exactly if the
count of unrequested bytes is odd and the byte is one of a single-byte read. -/
theorem Drains.both_ask {inward : List Beat} {drained : Transaction} (h : Ledger chain moves t)
    (hd : t.Drains status inward drained) (htakes : Takes inward) :
    AsksBare inward ∧ drained.nextStop ↔
      t.unrequested % 2 = 1 ∧ TakesSingle chain t drained := by
  rw [hd.asksBare_iff htakes]
  cases hd with
  | empty _ => exact absurd htakes (by simp [Takes])
  | @stores _ position slot byte =>
    have hkept : ¬ (t.discardDue = true ∧ (t.received position byte).discardDue = false) := by
      rintro ⟨hdue, hpaid⟩
      change (t.discardDue || t.isSingle position) = false at hpaid
      rw [hdue] at hpaid
      cases hpaid
    have hsingle : TakesSingle chain t (t.received position byte) ↔ t.isSingle position = true := by
      obtain ⟨m, hm, hfill, hl⟩ := h.current
      obtain ⟨hp, hr, hleft⟩ := (slot?_eq_some_iff hfill).mp slot
      rw [hp, Option.getD_some] at hl
      rw [Message.isRead_fill] at hr
      rw [TakesSingle, or_iff_left hkept, isSingle, decide_eq_true_iff]
      constructor
      · rintro ⟨j, m', hm', -, hone, hlt⟩
        rw [dataMoved_received byte _ _ slot] at hlt
        have hj : j = t.current := by
          by_contra hj
          rw [if_neg hj] at hlt
          exact Nat.lt_irrefl _ hlt
        subst hj
        obtain rfl : m' = m := Option.some.inj (hm'.symm.trans hm)
        omega
      · intro hone
        refine ⟨t.current, m, hm, hr, by omega, ?_⟩
        rw [dataMoved_received byte _ _ slot, if_pos rfl]
        exact Nat.lt_succ_self _
    rw [nextStop_of_slot slot, hsingle]
    constructor
    · rintro ⟨hdue, hnext⟩
      exact (nextStop_received byte h.fits slot hdue).mp hnext
    · rintro ⟨hodd, hone⟩
      have hdue : t.stopDue position = true := by rw [stopDue, hone, Bool.true_or]
      exact ⟨hdue, (nextStop_received byte h.fits slot hdue).mpr ⟨hodd, hone⟩⟩
  | discards _ slot byte =>
    have hsingle : TakesSingle chain t t.discarded ↔ t.discardDue = true := by
      unfold TakesSingle
      rw [t.discarded_eq.2.1]
      simp
    rw [nextStop_of_none slot, nextStop_discarded slot, decide_eq_true_iff, hsingle]
    cases t.discardDue with
    | true => simp
    | false =>
      simp only [Bool.false_eq_true, if_false, and_false, iff_false, odd_add_one]
      exact fun h => h.2 h.1

theorem Handles.live_of_takes {beats : List Beat} (he : t.Handles status beats t')
    (htakes : Takes beats) : t.isInert = false := by
  cases he with
  | inert _ => exact absurd htakes (by simp [Takes])
  | halts _ _ => exact absurd htakes (by simp [Takes])
  | moves hlive _ _ _ => exact Bool.not_eq_true _ ▸ hlive

/-- Of an event the receiving half decides. -/
theorem Handles.both_ask {beats : List Beat} (h : Ledger chain moves t)
    (he : t.Handles status beats t') (htakes : Takes beats) :
    AsksBare beats ∧ t'.nextStop ↔ t.unrequested % 2 = 1 ∧ TakesSingle chain t t' := by
  cases he with
  | inert _ => exact absurd htakes (by simp [Takes])
  | halts _ _ => exact absurd htakes (by simp [Takes])
  | @moves _ _ out inward sending fed drained feeds drains =>
    obtain ⟨sent, -, hfed⟩ := h.feeds feeds
    obtain ⟨pulled, -, hdrained⟩ := hfed.drains drains
    obtain ⟨hnone, hquiet⟩ := feeds.not_takes
    have hinward : Takes inward := (takes_append.mp htakes).resolve_left hnone
    have hasks : AsksBare (out ++ inward) ↔ AsksBare inward := by
      unfold AsksBare at hquiet ⊢
      rw [List.mem_append, or_iff_right hquiet]
    obtain ⟨-, hdue, hcount⟩ := feeds.same
    have hsingle : TakesSingle chain t (drained.advance sending) ↔ TakesSingle chain fed drained := by
      unfold TakesSingle
      rw [discardDue_advance, hdue]
      refine or_congr_left (exists_congr fun j => exists_congr fun m => ?_)
      refine and_congr_right fun hm => and_congr_right fun hr => and_congr_right fun _ => ?_
      rw [hdrained.dataMoved_advance sending hm, feeds.dataMoved h hm hr]
    rw [hasks, nextStop_advance, drains.both_ask hfed hinward, hcount, hsingle]

/-- An event that takes no byte and sends no address leaves the next stop request as it is. -/
theorem Handles.nextStop {beats : List Beat} (hfits : t.Fits)
    (he : t.Handles status beats t') (hnone : ¬ Takes beats)
    (haddress : ∀ beat ∈ beats, beat.isAddress = false) : t'.nextStop = t.nextStop := by
  cases he with
  | inert _ => rfl
  | halts _ _ => rfl
  | @moves _ _ out inward sending fed drained feeds drains =>
    have hfed := feeds.nextStop hfits fun beat hbeat => haddress beat (List.mem_append_left _ hbeat)
    rw [nextStop_advance, ← hfed]
    cases drains with
    | empty _ => rfl
    | stores _ _ byte => exact absurd ⟨byte, by simp⟩ hnone
    | discards _ _ byte => exact absurd ⟨byte, by simp⟩ hnone

/-- An event that takes a byte and sends no address asks for the stop if that was due before it. -/
theorem Handles.asksBare_iff {beats : List Beat} (hfits : t.Fits)
    (he : t.Handles status beats t') (htakes : Takes beats)
    (haddress : ∀ beat ∈ beats, beat.isAddress = false) : AsksBare beats ↔ t.nextStop := by
  cases he with
  | inert _ => exact absurd htakes (by simp [Takes])
  | halts _ _ => exact absurd htakes (by simp [Takes])
  | @moves _ _ out inward sending fed drained feeds drains =>
    obtain ⟨hnone, hquiet⟩ := feeds.not_takes
    have hinward : Takes inward := (takes_append.mp htakes).resolve_left hnone
    rw [← feeds.nextStop hfits fun beat hbeat => haddress beat (List.mem_append_left _ hbeat),
      ← drains.asksBare_iff hinward]
    unfold AsksBare at hquiet ⊢
    rw [List.mem_append, or_iff_right hquiet]

/-! ## Events in a row -/

/-- Neither do such events in any number. -/
theorem nextStop_serve {statuses : List Status} {trace : List Event} (h : Ledger chain moves t)
    (he : (serve statuses t).Executes trace t') :
    ∃ beats, Carries trace beats ∧
      (¬ Takes beats → (∀ beat ∈ beats, beat.isAddress = false) → t'.nextStop = t.nextStop) := by
  induction statuses generalizing moves t trace with
  | nil =>
    obtain ⟨rfl, rfl⟩ := executes_pure.mp he
    exact ⟨[], .nil, fun _ _ => rfl⟩
  | cons status rest ih =>
    obtain ⟨first, next, second, rfl, hnext, he⟩ := executes_bind.mp he
    obtain ⟨beats, hcarry, hhandles⟩ := handles_of_executes hnext
    obtain ⟨more, -, hmore⟩ := h.handles hhandles
    obtain ⟨later, hlater, hkept⟩ := ih hmore he
    refine ⟨beats ++ later, hcarry.append hlater, fun hnone haddress => ?_⟩
    rw [takes_append, not_or] at hnone
    rw [hkept hnone.2 fun beat hbeat => haddress beat (List.mem_append_right _ hbeat),
      hhandles.nextStop h.fits hnone.1
        fun beat hbeat => haddress beat (List.mem_append_left _ hbeat)]

/-- Of two events in a row that take a byte, without an address in between, both ask for the stop
exactly if the count of unrequested bytes is odd before the first one, and this one takes the only byte
of a single-byte read or the byte beyond it. -/
theorem both_ask_iff {σ : Type} (hw : Hardware σ) (s : σ) (chain : List Message)
    (before between : List Status) (first second : Status) :
    let o := (serve before (start chain)).run hw s
    let o₁ := (o.value.onEvent first).run hw o.state
    let o₂ := (serve between o₁.value).run hw o₁.state
    let o₃ := (o₂.value.onEvent second).run hw o₂.state
    InARow (traffic o₁.trace) (traffic o₂.trace) (traffic o₃.trace) →
      (AsksBare (traffic o₁.trace) ∧ AsksBare (traffic o₃.trace) ↔
        o.value.unrequested % 2 = 1 ∧ TakesSingle chain o.value o₁.value) := by
  intro o o₁ o₂ o₃ hrow
  have hfirst : o.value.Handles first (traffic o₁.trace) o₁.value := handles_run hw _ _ first
  have hsecond : o₂.value.Handles second (traffic o₃.trace) o₃.value := handles_run hw _ _ second
  obtain ⟨moves, hledger⟩ := Ledger.of_live hw s before (hfirst.live_of_takes hrow.opens)
  obtain ⟨more, -, hledger₁⟩ := hledger.handles hfirst
  have hbetween := executes_run hw (serve between o₁.value) o₁.state
  obtain ⟨beats, hcarry, hkept⟩ := nextStop_serve hledger₁ hbetween
  obtain ⟨later, -, hledger₂⟩ := hledger₁.books_serve hbetween
  have htraffic : traffic o₂.trace = beats := hcarry.traffic_eq
  rw [← htraffic] at hkept
  have hsame : o₂.value.nextStop = o₁.value.nextStop :=
    hkept hrow.rests fun beat hbeat => hrow.unaddressed beat (List.mem_append_left _ hbeat)
  rw [hsecond.asksBare_iff hledger₂.fits hrow.closes
    fun beat hbeat => hrow.unaddressed beat (List.mem_append_right _ hbeat), hsame]
  exact hfirst.both_ask hledger hrow.opens

end Transaction
end TwoWire
