import TwoWire.Proofs.Dormancy
import TwoWire.Proofs.Retries
import TwoWire.Proofs.StopPairs
/-!
# Invalid writes on the bench

On the bench a write is invalid only in one way: a read goes on, its stop was asked for and one byte
was taken since, and the stop is asked for again. So a transaction that an invalid write brings down has
taken two bytes in direct succession, each with a stop request in front of it.
-/
namespace TwoWire
namespace Bench
open Program (ends ends_bind ends_bind_eq)
open Transaction (nextWord?_of_none nextWord?_of_some nextWord?_of_read slot?_eq_some_iff
  getElem?_chain_received)

variable {b : Bench} {beats : List Beat} {t t' : Transaction} {status : Status}

/-! ## What the queues do to a read -/

/-- The controller reads and has not stalled. -/
def Reads (b : Bench) : Prop := b.mode = .read ∧ b.stalled = false

/-- No invalid write is latched. -/
def Unreproached (b : Bench) : Prop := ∃ nacked, b.errors = errorBits nacked false

theorem Unreproached.fault?_ne (h : Unreproached b) :
    (⟨b.errors ||| b.liveBits⟩ : Status).fault? ≠ some .invalidWrite := by
  obtain ⟨nacked, herrors⟩ := h
  unfold liveBits
  rw [herrors]
  cases nacked <;> cases b.received.isSome <;> cases b.isActive <;> cases b.master <;> decide

@[simp] theorem readEnd_fetch (b : Bench) : b.fetch.readEnd = b.readEnd := by
  unfold fetch
  split <;> rfl

@[simp] theorem errors_fetch (b : Bench) : b.fetch.errors = b.errors := by
  unfold fetch
  split <;> rfl

/-- A read that an address begins has not been asked to end. -/
theorem reads_address (h : Unreproached b) (target : UInt8) (reading last : Bool) :
    Unreproached (b.address target reading last) ∧
      (Reads (b.address target reading last) →
        reading = true ∧ (b.address target reading last).readEnd = .unset) := by
  obtain ⟨nacked, herrors⟩ := h
  unfold address
  dsimp only
  split
  case isFalse =>
    refine ⟨⟨true, ?_⟩, fun hreads => nomatch hreads.1⟩
    change b.errors ||| Status.Flag.nacked.mask = _
    rw [herrors, errorBits_or_nacked]
  split
  case isTrue => exact ⟨⟨nacked, herrors⟩, fun hreads => nomatch hreads.1⟩
  split
  case isTrue hreading =>
    refine ⟨⟨nacked, ?_⟩, fun _ => ⟨hreading, ?_⟩⟩
    · rw [errors_fetch]
      exact herrors
    · rw [readEnd_fetch]
      rfl
  case isFalse => exact ⟨⟨nacked, herrors⟩, fun hreads => nomatch hreads.1⟩

/-- Apart from addresses, a word that comes to no read begins none. -/
theorem reads_pushWord (word : UInt32) (h : Unreproached b)
    (hword : Reads b → word &&& FifoWord.addressBit ≠ 0) :
    Unreproached (b.pushWord word) ∧
      (Reads (b.pushWord word) → word &&& FifoWord.addressBit ≠ 0 ∧ (word &&& 1 != 0) = true ∧
        (b.pushWord word).readEnd = .unset) := by
  unfold pushWord
  dsimp only
  split
  case isTrue hstalled =>
    refine ⟨h, fun hreads => ?_⟩
    rw [hreads.2] at hstalled
    cases hstalled
  rename_i hfree
  split
  case isTrue haddress =>
    obtain ⟨hclean, hreads⟩ := reads_address h ((word >>> 1) &&& 0x7f).toUInt8 (word &&& 1 != 0)
      (word &&& FifoWord.lastBit != 0)
    exact ⟨hclean, fun hr => ⟨bne_iff_ne.mp haddress, hreads hr⟩⟩
  rename_i hdata
  have hmode : b.mode ≠ .read := fun hm =>
    hdata (bne_iff_ne.mpr (hword ⟨hm, Bool.not_eq_true _ ▸ hfree⟩))
  unfold data
  split
  case h_1 => exact ⟨h, fun hreads => absurd hreads.1 hmode⟩
  case h_2 hwrite =>
    split
    · exact ⟨h, fun hreads => absurd hreads.1 hmode⟩
    · refine ⟨?_, fun hreads => ?_⟩
      · split <;> exact h
      · have hm := hreads.1
        split at hm
        · cases hm
        · exact absurd hm hmode
  case h_3 hread => exact absurd hread hmode

/-- A read goes on after a byte if its stop was not asked for, and ends with the byte that follows
the request. -/
theorem reads_pullByte (h : Unreproached b) (hasked : Reads b → b.readEnd ≠ .announced) :
    Unreproached b.pullByte.2 ∧
      (Reads b.pullByte.2 → Reads b ∧ b.pullByte.2.readEnd = .unset) := by
  unfold pullByte
  dsimp only
  split
  case isFalse hnot =>
    refine ⟨h, fun hreads => absurd ⟨hreads.1, ?_⟩ hnot⟩
    rw [Bool.not_eq_true']
    exact hreads.2
  case isTrue hread =>
    have hreads : Reads b := ⟨hread.1, Bool.not_eq_true' _ ▸ hread.2⟩
    split
    case h_1 hunset =>
      refine ⟨?_, fun _ => ⟨hreads, ?_⟩⟩
      · unfold Unreproached
        rw [errors_fetch]
        exact h
      · rw [readEnd_fetch]
        exact hunset
    case h_2 hannounced => exact absurd hannounced (hasked hreads)
    case h_3 => exact ⟨h, fun hr => nomatch hr.1⟩

/-- The first stop request of a read is heard, and one byte more comes after it. -/
theorem reads_stopped (h : Unreproached b) (hasked : Reads b → b.readEnd = .unset) :
    let b' := (b.pushWord FifoWord.stop.bits).pullByte.2
    Unreproached b' ∧ (Reads b' → Reads b ∧ b'.readEnd = .reached) := by
  intro b'
  by_cases hreads : Reads b
  · have hpushed : b.pushWord FifoWord.stop.bits = { b with readEnd := .announced } := by
      rw [pushWord_stop hreads.2]
      simp [data, hreads.1, hasked hreads]
    have hpulled : b' = fetch { b with received := none, readEnd := .reached } := by
      change (b.pushWord FifoWord.stop.bits).pullByte.2 = _
      rw [hpushed, pullByte]
      simp [hreads.1, hreads.2]
    rw [hpulled, Unreproached, errors_fetch, readEnd_fetch]
    exact ⟨h, fun _ => ⟨hreads, rfl⟩⟩
  · obtain ⟨hclean, hnone⟩ := reads_pushWord FifoWord.stop.bits h fun hr => absurd hr hreads
    have hidle : ¬ Reads (b.pushWord FifoWord.stop.bits) := fun hr => (hnone hr).1 rfl
    obtain ⟨hpulled, hkept⟩ := reads_pullByte hclean fun hr => absurd hr hidle
    exact ⟨hpulled, fun hr => absurd (hkept hr).1 hidle⟩

/-- The bench after a beat of the traffic. -/
def cross (b : Bench) : Beat → Bench
  | .paced word => b.paced.pushWord word
  | .bare word => b.pushWord word
  | .pulled _ => b.pullByte.2

theorem clockOn_paced (b : Bench) : b.paced.clockOn = b.clockOn := by
  unfold paced
  split <;> rfl

/-- The traffic of an event decides the bench after it. -/
theorem state_of_handles (hc : b.clockOn = true) (he : t.Handles status beats t') :
    ((t.onEvent status).ends respond b).2 = beats.foldl cross b := by
  cases he with
  | inert hinert =>
    rw [Transaction.onEvent, if_pos hinert]
    rfl
  | halts hlive hfault =>
    rw [ends_onEvent_fault (Bool.not_eq_true _ ▸ hlive) hfault]
    rfl
  | @moves hlive hclean out inward sending fed drained feeds drains =>
    rw [ends_onEvent (Bool.not_eq_true _ ▸ hlive) hclean, List.foldl_append]
    have hfed : (t.feedOn status).ends respond b = ((sending, fed), out.foldl cross b) ∧
        (out.foldl cross b).clockOn = true := by
      cases feeds with
      | full hfull => exact ⟨by rw [Transaction.feedOn, if_pos hfull]; rfl, hc⟩
      | spent hfree hlast =>
        exact ⟨by rw [Transaction.feedOn, if_neg hfree, Transaction.feed, hlast]; rfl, hc⟩
      | @sends hfree word next =>
        refine ⟨?_, (Fitted.pushWord b.paced word.bits).clockOn.trans (b.clockOn_paced.trans hc)⟩
        rw [Transaction.feedOn, if_neg hfree, Transaction.feed, next]
        exact ends_bind_eq (ends_pushPaced hc word.bits) _
    obtain ⟨hends, hc'⟩ := hfed
    simp only [hends]
    generalize out.foldl cross b = b₁ at hc'
    have hstop (due : Bool) (byte : UInt8) :
        let b₂ := if due then b₁.pushWord FifoWord.stop.bits else b₁
        b₂.clockOn = true ∧
          (Controller.stopBeats due ++ [Beat.pulled byte]).foldl cross b₁ = b₂.pullByte.2 := by
      cases due with
      | true => exact ⟨(Fitted.pushWord b₁ FifoWord.stop.bits).clockOn.trans hc', rfl⟩
      | false => exact ⟨hc', rfl⟩
    cases drains with
    | empty hempty =>
      rw [Transaction.drainOn, if_neg hempty]
      rfl
    | @stores hfull position slot byte =>
      obtain ⟨hc'', hcross⟩ := hstop (fed.stopDue position) byte
      rw [Transaction.drainOn, if_pos hfull, Transaction.drain, slot, hcross]
      dsimp only
      rw [ends_bind_eq (ends_stopIf hc' _), ends_bind_eq (ends_pull hc'')]
      rfl
    | discards hfull slot byte =>
      obtain ⟨hc'', hcross⟩ := hstop (decide (fed.unrequested % 2 = 1)) byte
      rw [Transaction.drainOn, if_pos hfull, Transaction.drain, slot, hcross]
      dsimp only
      rw [ends_bind_eq (ends_stopIf hc' _), ends_bind_eq (ends_pull hc'')]
      rfl

/-! ## What the bench has heard -/

/-- Two bytes are taken in direct succession, each with a stop request in front of it. -/
def AsksTwice (beats : List Beat) : Prop :=
  ∃ first second, [Beat.bare FifoWord.stop.bits, .pulled first, .bare FifoWord.stop.bits,
    .pulled second] <:+: beats

theorem AsksTwice.append (h : AsksTwice beats) (more : List Beat) : AsksTwice (beats ++ more) := by
  obtain ⟨first, second, hinfix⟩ := h
  exact ⟨first, second, hinfix.trans (List.prefix_append beats more).isInfix⟩

/-- How far the bench may be after traffic in which nobody asked twice: no invalid write has been
latched or seen, a read that is to end has been asked for its last byte just now, and nothing but an
address goes out while a read goes on. -/
structure Heard (beats : List Beat) (t : Transaction) (b : Bench) : Prop where
  clean : Unreproached b
  fault : t.fault ≠ some .invalidWrite
  asked : Reads b → b.readEnd = .unset ∨
    b.readEnd = .reached ∧ ∃ byte, [Beat.bare FifoWord.stop.bits, .pulled byte] <:+ beats
  sending : Reads b → ∀ word, t.nextWord? = some word →
    ∃ target reading last, word = .address target reading last

namespace Heard

/-- The words sent keep it. -/
theorem feeds {out : List Beat} {sending : Bool} {fed : Transaction} (hfits : t.Fits)
    (h : Heard beats t b) (hf : t.Feeds status out sending fed) :
    Heard (beats ++ out) fed (out.foldl cross b) := by
  cases hf with
  | full _ => rwa [List.append_nil]
  | spent _ _ => rwa [List.append_nil]
  | @sends _ word next =>
    have hpaced : Unreproached b.paced ∧ (Reads b.paced ↔ Reads b) := by
      unfold paced
      split
      · exact ⟨h.clean, Iff.rfl⟩
      · exact ⟨h.clean, Iff.rfl⟩
    obtain ⟨hclean, hreads⟩ := reads_pushWord word.bits hpaced.1 fun hr => by
      obtain ⟨target, reading, last, rfl⟩ := h.sending (hpaced.2.mp hr) word next
      rw [FifoWord.address_bits]
      decide
    refine ⟨hclean, ?_, fun hr => .inl (hreads hr).2.2, fun hr sent hsent => ?_⟩
    · rw [Transaction.fault_sent]
      exact h.fault
    · -- only the address of a read begins one, and nothing is sent after that
      obtain ⟨haddress, hreading, -⟩ := hreads hr
      obtain ⟨m, hm, -⟩ := hfits
      cases hp : t.position with
      | none =>
        rw [nextWord?_of_none hm hp] at next
        cases next
        rw [Message.addressWord, FifoWord.reading_bits] at hreading
        have hm' : t.sent.chain[t.sent.current]? = some m := by
          rw [Transaction.chain_sent, Transaction.current_sent, hm]
        have hp' : t.sent.position = some 0 := by simp [Transaction.sent, hp]
        rw [nextWord?_of_read hm' hreading hp'] at hsent
        cases hsent
      | some position =>
        rw [nextWord?_of_some hm hp] at next
        split at next
        · cases next
        · obtain ⟨byte, -, rfl⟩ := Option.map_eq_some_iff.mp next
          exact absurd (FifoWord.data_bits byte _).1 haddress

/-- A byte taken keeps it, unless the stop was asked for twice. -/
theorem drains {inward : List Beat} {drained : Transaction} (hfits : t.Fits)
    (h : Heard beats t b) (hd : t.Drains status inward drained) :
    AsksTwice (beats ++ inward) ∨ Heard (beats ++ inward) drained (inward.foldl cross b) := by
  have htaken : ∀ (due : Bool) (byte : UInt8), drained.fault = t.fault →
      (∀ word, drained.nextWord? = some word → t.nextWord? = some word) →
      inward = Controller.stopBeats due ++ [.pulled byte] →
      AsksTwice (beats ++ inward) ∨ Heard (beats ++ inward) drained (inward.foldl cross b) := by
    rintro due byte hfault hnext rfl
    cases due with
    | false =>
      have hopen : Reads b → b.readEnd ≠ .announced := by
        intro hr hannounced
        rcases h.asked hr with hunset | ⟨hreached, -⟩
        · rw [hannounced] at hunset
          cases hunset
        · rw [hannounced] at hreached
          cases hreached
      obtain ⟨hclean, hreads⟩ := reads_pullByte h.clean hopen
      refine .inr ⟨hclean, hfault ▸ h.fault, fun hr => .inl (hreads hr).2, fun hr word hword => ?_⟩
      exact h.sending (hreads hr).1 word (hnext word hword)
    | true =>
      by_cases hlate : Reads b ∧ b.readEnd = .reached
      · rcases h.asked hlate.1 with hunset | ⟨-, first, before, hbefore⟩
        · rw [hlate.2] at hunset
          cases hunset
        · refine .inl ⟨first, byte, before, [], ?_⟩
          rw [← hbefore]
          simp [Controller.stopBeats]
      · have hunset : Reads b → b.readEnd = .unset := fun hr =>
          (h.asked hr).resolve_right fun hreached => hlate ⟨hr, hreached.1⟩
        obtain ⟨hclean, hreads⟩ := reads_stopped h.clean hunset
        refine .inr ⟨hclean, hfault ▸ h.fault, fun hr => .inr ⟨(hreads hr).2, byte, beats, rfl⟩,
          fun hr word hword => ?_⟩
        exact h.sending (hreads hr).1 word (hnext word hword)
  cases hd with
  | empty _ =>
    rw [List.append_nil]
    exact .inr h
  | @stores _ position slot byte =>
    refine htaken (t.stopDue position) byte rfl (fun word hword => ?_) rfl
    obtain ⟨m, hm, -⟩ := hfits
    obtain ⟨hp, hr, -⟩ := (slot?_eq_some_iff hm).mp slot
    have hm' : (t.received position byte).chain[(t.received position byte).current]? =
        some (m.store position byte) := by
      have hget := getElem?_chain_received t position byte
      rwa [hm] at hget
    have hr' : (m.store position byte).isRead := (Payload.isRead_store _ _ _).trans hr
    rw [nextWord?_of_read hm' hr' rfl] at hword
    cases hword
  | discards _ slot byte =>
    have hsame : t.discarded.fault = t.fault ∧ t.discarded.nextWord? = t.nextWord? := by
      unfold Transaction.discarded
      split <;> exact ⟨rfl, rfl⟩
    exact htaken (decide (t.unrequested % 2 = 1)) byte hsame.1 (fun word hword => hsame.2 ▸ hword) rfl

/-- So does turning to the next message, which has its address to send. -/
theorem advance (sending : Bool) (h : Heard beats t b) : Heard beats (t.advance sending) b := by
  refine ⟨h.clean, ?_, h.asked, fun hr word hword => ?_⟩
  · rw [Transaction.fault_advance]
    exact h.fault
  · unfold Transaction.advance at hword
    split at hword
    case isFalse => exact h.sending hr word hword
    split at hword
    case isFalse => exact h.sending hr word hword
    split at hword
    case isTrue =>
      unfold Transaction.nextWord? at hword
      split at hword
      · cases hword
      · cases hword
        exact ⟨_, _, _, rfl⟩
      · rename_i hposition
        cases hposition
    split at hword
    · exact h.sending hr word hword
    split at hword <;> exact h.sending hr word hword

/-- An event keeps it, unless the stop was asked for twice. -/
theorem handles {more : List Beat} (hlive : t.isInert = false → t.Fits)
    (hstatus : status.fault? ≠ some .invalidWrite) (h : Heard beats t b)
    (he : t.Handles status more t') :
    AsksTwice (beats ++ more) ∨ Heard (beats ++ more) t' (more.foldl cross b) := by
  cases he with
  | inert _ =>
    rw [List.append_nil]
    exact .inr h
  | halts _ hfault =>
    rw [List.append_nil]
    rw [hfault] at hstatus
    exact .inr ⟨h.clean, hstatus, h.asked, h.sending⟩
  | @moves hnot _ out inward sending fed drained feeds drains =>
    have hfits := hlive (Bool.not_eq_true _ ▸ hnot)
    have hfed := h.feeds hfits feeds
    rw [← List.append_assoc, List.foldl_append]
    refine (hfed.drains ?_ drains).imp_right fun hdrained => hdrained.advance sending
    cases feeds with
    | full _ => exact hfits
    | spent _ _ => exact hfits
    | sends _ next => exact Transaction.fits_sent hfits next

end Heard

/-! ## A wait -/

/-- The stop was asked for twice, or the bench is where it may be. -/
def Attuned (beats : List Beat) (t : Transaction) (b : Bench) : Prop :=
  AsksTwice beats ∨ Heard beats t b

/-- What has been played carries traffic that leaves the bench so. -/
def Hears (beats : List Beat) (o : Outcome Bench Session.Watched) : Prop :=
  ∃ more, Carries o.trace more ∧ Attuned (beats ++ more) o.value.transaction o.state

/-- The bench may look different where that does not matter. -/
theorem Attuned.congr {b' : Bench} (h : Attuned beats t b) (herrors : Unreproached b → Unreproached b')
    (hmode : b'.mode = b.mode) (hstalled : b'.stalled = b.stalled) (hend : b'.readEnd = b.readEnd) :
    Attuned beats t b' := by
  refine h.imp_right fun h => ⟨herrors h.clean, h.fault, ?_, ?_⟩
  · unfold Reads
    rw [hmode, hstalled, hend]
    exact h.asked
  · unfold Reads
    rw [hmode, hstalled]
    exact h.sending

section
variable {α : Type} {p : Program α} {a : α} {b' : Bench}

/-- Accesses in front that are no traffic may be left out. -/
theorem Hears.after {f : α → Program Session.Watched} (hends : p.ends respond b = (a, b'))
    (hsilent : ∀ {trace}, p.Executes trace a → Carries trace [])
    (h : Hears beats ((f a).run respond b')) : Hears beats ((p >>= f).run respond b) := by
  obtain ⟨hvalue, hstate⟩ := Program.run_of_ends hends
  have htrace := Program.executes_run respond p b
  rw [hvalue] at htrace
  obtain ⟨more, hcarry, hattuned⟩ := h
  rw [Program.run_bind, hvalue, hstate]
  exact ⟨more, (hsilent htrace).append hcarry, hattuned⟩

end

/-- What follows goes on from there. -/
theorem Hears.before {p : Program Session.Watched}
    {f : Session.Watched → Program Session.Watched} {seen : Session.Watched} {b' : Bench}
    (hends : p.ends respond b = (seen, b')) (h : Hears beats (p.run respond b))
    (hf : ∀ more, Attuned (beats ++ more) seen.transaction b' →
      Hears (beats ++ more) ((f seen).run respond b')) :
    Hears beats ((p >>= f).run respond b) := by
  obtain ⟨hvalue, hstate⟩ := Program.run_of_ends hends
  obtain ⟨more, hcarry, hattuned⟩ := h
  rw [hvalue, hstate] at hattuned
  obtain ⟨later, hlater, hend⟩ := hf more hattuned
  rw [List.append_assoc] at hend
  rw [Program.run_bind, hvalue, hstate]
  exact ⟨more ++ later, hcarry.append hlater, hend⟩

variable {bus : Bus} {chain : List Message}

/-- An event on a sample of the bench, which the sampling may have changed. -/
theorem attuned_onEvent {b' : Bench} (hc : b'.clockOn = true) (ht : t.Sound chain)
    (h : Attuned beats t b) (h' : Attuned beats t b') :
    let o := (t.onEvent ⟨b.errors ||| b.liveBits⟩).run respond b'
    ∃ more, Carries o.trace more ∧ Attuned (beats ++ more) o.value o.state := by
  intro o
  obtain ⟨more, hcarry, hhandles⟩ :=
    Transaction.handles_of_executes (Program.executes_run respond (t.onEvent _) b')
  refine ⟨more, hcarry, ?_⟩
  rcases h with htwice | hheard
  · exact .inl (htwice.append more)
  rcases h' with htwice | hheard'
  · exact .inl (htwice.append more)
  obtain ⟨moves, hledger⟩ := ht.booked
  have hstate : o.state = more.foldl cross b' := state_of_handles hc hhandles
  rw [hstate]
  exact hheard'.handles (fun _ => hledger.fits) hheard.clean.fault?_ne hhandles

theorem hears_poll (hbus : bus.config = config) (hm : b.Manned) (ht : t.Sound chain)
    (h : Attuned beats t b) : Hears beats ((Session.poll bus t).run respond b) := by
  let status : Status := ⟨b.errors ||| b.liveBits⟩
  have hsample : Controller.sample.ends respond { b with edge := ⟨false⟩ } = (status, b.attended) :=
    ends_sample (b := { b with edge := ⟨false⟩ }) hm.clockOn
  refine .after (ends_takePending hbus hm.clockOn hm.unmasked) Session.silent_takePending ?_
  refine .after hsample Session.silent_sample ?_
  have hattended : Attuned beats t b.attended := h.congr (fun _ => ⟨false, rfl⟩) rfl rfl rfl
  split
  case isFalse => exact ⟨[], .nil, by rwa [List.append_nil]⟩
  case isTrue =>
    have hclock : b.attended.clockOn = true := hm.clockOn
    obtain ⟨more, hcarry, hend⟩ := attuned_onEvent hclock ht h hattended
    rw [Program.run_bind]
    exact ⟨more, by simpa using hcarry, hend⟩

/-- A wait keeps the bench where it may be, or the stop is asked for twice on the way. -/
theorem hears_settle (hbus : bus.config = config) (idle : Nat) (hm : b.Manned)
    (ht : t.Sound chain) (h : Attuned beats t b) :
    Hears beats ((Session.settle bus idle t).run respond b) := by
  induction idle, t using Session.settle.induct bus generalizing b beats with
  | case1 idle t early ihStill ihMoved =>
    have hpolled : (Session.poll bus t).Returns ((Session.poll bus t).ends respond b).1 :=
      Program.returns_value_run _ _ _
    have hhears := hears_poll hbus hm ht h
    generalize hpoll : (Session.poll bus t).ends respond b = polled at hpolled
    obtain ⟨seen, b₁⟩ := polled
    have hmanned := hm.ends (Session.confined_poll bus t) hpoll
    have hsound := sound_of_poll ht hpolled
    rw [Session.settle_eq, if_pos early]
    refine .before hpoll hhears fun more hattuned => ?_
    split
    case isTrue => exact ⟨[], .nil, by rwa [List.append_nil]⟩
    split
    case isTrue hsame =>
      obtain ⟨b₂, hpause, ⟨edge, delayed, rfl⟩, -⟩ := ends_backoff idle b₁
      have hpaused := hmanned.ends (Session.confined_backoff idle) hpause
      refine .after hpause Session.silent_backoff ?_
      exact ihStill seen hpolled hsame hpaused hsound (hattuned.congr id rfl rfl rfl)
    case isFalse hother => exact ihMoved seen hpolled hother hmanned hsound hattuned
  | case2 idle t late =>
    rw [Session.settle_eq, if_neg late]
    refine .after (Program.ends_debug respond bus.logger _ b) (fun htrace => ?_) ?_
    · rw [Program.executes_notes htrace]
      exact .nil
    · exact ⟨[], .nil, by rwa [List.append_nil]⟩

/-! ## A transaction -/

/-- An invalid write brings the transaction down only after two stop requests in a row. -/
def Blames (o : Outcome Bench (Answer Nat)) : Prop :=
  o.value.result = .error (.halted .invalidWrite) →
    ∃ window, window <:+: o.trace ∧ AsksTwice (traffic window)

theorem Blames.after {α : Type} {p : Program α} {f : α → Program (Answer Nat)} {a : α} {b' : Bench}
    (hends : p.ends respond b = (a, b')) (h : Blames ((f a).run respond b')) :
    Blames ((p >>= f).run respond b) := by
  obtain ⟨hvalue, hstate⟩ := Program.run_of_ends hends
  rw [Program.run_bind, hvalue, hstate]
  intro hresult
  obtain ⟨window, hwindow, htwice⟩ := h hresult
  exact ⟨window, hwindow.trans (List.suffix_append _ _).isInfix, htwice⟩

/-- The answer names the fault of the transaction that has come to rest or was given up. -/
theorem fault_of_answer {watched : Session.Watched} {answer : Answer Nat} {fault : Fault}
    (h : (if watched.quiet then Session.conclude bus watched.transaction
      else Session.abandon bus watched.transaction).Returns answer)
    (hresult : answer.result = .error (.halted fault)) : watched.transaction.fault = some fault := by
  have hconclude {t : Transaction} (hc : (Session.conclude bus t).Returns answer) :
      t.fault = some fault := by
    have htold := Session.result_of_conclude hc
    rw [hresult] at htold
    cases hf : t.fault with
    | none =>
      rw [hf] at htold
      cases htold
    | some told =>
      rw [hf] at htold
      cases htold
      rfl
  split at h
  · exact hconclude h
  · simp only [Session.abandon, Program.returns_bind] at h
    obtain ⟨_, -, cleared, -, h⟩ := h
    cases cleared with
    | ok _ => exact hconclude (t := watched.transaction.giveUp) h
    | error _ =>
      cases Program.returns_pure.mp h
      cases hresult

theorem blames_carry (hbus : bus.config = config) (hm : b.Manned) (hc : chain ≠ [])
    (hclean : Unreproached b) (hmode : b.mode = .idle) :
    Blames ((Session.carry bus chain).run respond b) := by
  let status : Status := ⟨b.errors ||| b.liveBits⟩
  let b₁ : Bench := { b with errors := 0 }
  let begun := ((Transaction.start chain).onEvent status).run respond b₁
  let settled := (Session.settle bus 0 begun.value).run respond begun.state
  have hsample : Controller.sample.ends respond b = (status, b₁) := ends_sample hm.clockOn
  have hm₁ : Manned b₁ := hm.ends Controller.confined_sample hsample
  have hm₂ : Manned begun.state := hm₁.ends (Transaction.confined_onEvent _ status) rfl
  -- an idle bench has heard nothing yet
  have hidle : ¬ Reads b := by
    rintro ⟨hread, -⟩
    rw [hmode] at hread
    cases hread
  have hstart : Attuned [] (Transaction.start chain) b :=
    .inr ⟨hclean, nofun, fun hr => absurd hr hidle, fun hr => absurd hr hidle⟩
  have hsampled : Attuned [] (Transaction.start chain) b₁ :=
    hstart.congr (fun _ => ⟨false, rfl⟩) rfl rfl rfl
  have hsound := Transaction.sound_start hc
  have hprimed : begun.value.Sound chain :=
    (hsound.onEvent (Program.returns_value_run respond _ b₁)).1
  obtain ⟨first, hfirst, hattuned⟩ := attuned_onEvent hm₁.clockOn hsound hstart hsampled
  obtain ⟨more, hmore, hend⟩ := hears_settle hbus 0 hm₂ hprimed hattuned
  refine .after hsample fun hresult => ?_
  rw [Program.run_bind, Program.run_bind] at hresult ⊢
  let rest : Program (Answer Nat) := Session.reportUnrequested bus settled.value.transaction >>=
    fun _ => if settled.value.quiet then Session.conclude bus settled.value.transaction
      else Session.abandon bus settled.value.transaction
  have hrest : rest.Returns (rest.run respond settled.state).value := Program.returns_value_run _ _ _
  obtain ⟨_, -, hanswer⟩ := Program.returns_bind.mp hrest
  have hfault := fault_of_answer hanswer hresult
  have hsplit : begun.trace ++ settled.trace ++ (rest.run respond settled.state).trace =
      begun.trace ++ (settled.trace ++ (rest.run respond settled.state).trace) :=
    List.append_assoc _ _ _
  refine ⟨begun.trace ++ settled.trace, ⟨[], _, hsplit⟩, ?_⟩
  rw [(hfirst.append hmore).traffic_eq]
  exact hend.resolve_right fun hheard => hheard.fault hfault

/-- A session brings a transaction down for an invalid write only so. -/
theorem blames_transact (hbus : bus.config = config) (hm : b.Manned) (hc : chain ≠ [])
    (herrors : b.errors = 0) (hmode : b.mode = .idle) :
    Blames ((Session.transact bus chain).run respond b) := by
  cases hactive : b.isActive with
  | false =>
    have hpoll := ends_pollIdle hbus hm.clockOn hm.unmasked herrors
    rw [hactive] at hpoll
    have hwait : (Session.awaitIdle bus Session.pollLimit).ends respond b = (true, b.attended) := by
      rw [Session.pollLimit, Session.awaitIdle, ends_bind_eq hpoll]
      rfl
    have hmanned := hm.ends (Session.confined_awaitIdle bus _) hwait
    exact .after hwait (blames_carry hbus hmanned hc ⟨false, rfl⟩ hmode)
  | true =>
    obtain ⟨b₁, hwait, -⟩ := ends_awaitIdle_active hbus hm.clockOn hm.unmasked herrors hactive
      Session.pollLimit
    have hmanned := hm.ends (Session.confined_awaitIdle bus _) hwait
    refine .after hwait ?_
    have hreturned : (Session.clear bus).Returns ((Session.clear bus).ends respond b₁).1 :=
      Program.returns_value_run _ _ _
    generalize hclear : (Session.clear bus).ends respond b₁ = cleared at hreturned
    obtain ⟨result, b₂⟩ := cleared
    have hleft := left_clear hbus hmanned hclear
    refine .after hclear ?_
    cases result with
    | ok _ => exact blames_carry hbus hleft.toManned hc ⟨false, hleft.errors⟩ hleft.mode
    | error error =>
      intro hresult
      cases Session.error_of_clear hreturned
      cases hresult

end Bench

namespace Master
open Bench (respond)

/-- The calls of a master are to blame for no other invalid writes. -/
theorem blames_transact {m : Master} {b : Bench} (hbus : m.bus.config = Bench.config)
    (hb : m.Keeps b) (chain : List Message) :
    Bench.Blames ((m.transact chain).run respond b) := by
  unfold transact
  split
  case isFalse =>
    rw [reportNotInstalled]
    exact .after (Program.ends_error respond _ _ b) fun hresult => by cases hresult
  rename_i hm
  split
  case isFalse => exact fun hresult => by cases hresult
  rename_i hvalid
  have hmanned := hb.dormant.opened (hb.pads hm)
  have hgranted : (Program.enableClock m.bus.config.clock).ends respond b =
      (true, (b.enableClock Bench.clock).2) := by
    rw [hbus]
    rfl
  have hunmasked : (Program.unmaskLine m.bus.config.line).ends respond
      (b.enableClock Bench.clock).2 = ((), b.opened) := rfl
  refine .after hgranted ?_
  rw [if_pos rfl]
  refine .after hunmasked ?_
  intro hresult
  rw [Program.run_bind] at hresult ⊢
  obtain ⟨window, hwindow, htwice⟩ :=
    Bench.blames_transact hbus hmanned hvalid.1 hb.dormant.errors hb.dormant.mode hresult
  exact ⟨window, hwindow.trans (List.prefix_append _ _).isInfix, htwice⟩

/-- Two bytes are taken in a row, each with a stop request in front of it and without an address in
between, exactly if the count of unrequested bytes is odd before the first one and this one belongs to
a read of a single byte: it is the only one of the buffer, or the one beyond it. And on the bench a
transaction ends in an invalid write only if two bytes have been taken like that in direct
succession. -/
theorem stops_in_a_row {σ : Type} (hw : Hardware σ) (s : σ) (chain : List Message)
    (before between : List Status) (first second : Status) {m : Master} {b : Bench}
    (hbus : m.bus.config = Bench.config) (hb : m.Keeps b) :
    (let o := (Transaction.serve before (.start chain)).run hw s
      let o₁ := (o.value.onEvent first).run hw o.state
      let o₂ := (Transaction.serve between o₁.value).run hw o₁.state
      let o₃ := (o₂.value.onEvent second).run hw o₂.state
      InARow (traffic o₁.trace) (traffic o₂.trace) (traffic o₃.trace) →
        (AsksBare (traffic o₁.trace) ∧ AsksBare (traffic o₃.trace) ↔
          o.value.unrequested % 2 = 1 ∧ Transaction.TakesSingle chain o.value o₁.value)) ∧
    let o := (m.transact chain).run respond b
    o.value.result = .error (.halted .invalidWrite) →
      ∃ window, window <:+: o.trace ∧ Bench.AsksTwice (traffic window) :=
  ⟨Transaction.both_ask_iff hw s chain before between first second, blames_transact hbus hb chain⟩

/-- The byte that an empty read fetches is taken unasked, which makes the count odd before the only
byte of the last read. -/
def oddChain : List Message := [.read 0x48 [], .write 0x48 [], .read 0x48 [0]]

/-- A bench whose controller has the pads, with one slave that acknowledges. -/
def pairBench : Bench := registerBench.routePads true

theorem stops_in_a_row_on_pairBench :
    let o := (Transaction.serve [⟨0⟩, ⟨2⟩, ⟨0⟩] (.start oddChain)).run Script.respond {}
    let o₁ := (o.value.onEvent ⟨2⟩).run Script.respond o.state
    let o₂ := (o₁.value.onEvent ⟨2⟩).run Script.respond o₁.state
    benchMaster.Keeps pairBench ∧ InARow (traffic o₁.trace) [] (traffic o₂.trace) ∧
      o.value.unrequested % 2 = 1 ∧ Transaction.TakesSingle oddChain o.value o₁.value ∧
      ∃ window, window <:+: ((benchMaster.transact oddChain).run respond pairBench).trace ∧
        Bench.AsksTwice (traffic window) := by
  intro o o₁ o₂
  have hb : benchMaster.Keeps pairBench := by
    refine ⟨?_, fun _ => rfl⟩
    constructor <;> rfl
  have hrow : InARow (traffic o₁.trace) [] (traffic o₂.trace) :=
    ⟨⟨0xee, by decide⟩, nofun, ⟨0xee, by decide⟩, by decide⟩
  have hasks : AsksBare (traffic o₁.trace) ∧ AsksBare (traffic o₂.trace) := by
    unfold AsksBare
    decide
  have hresult : ((benchMaster.transact oddChain).run respond pairBench).value.result =
      .error (.halted .invalidWrite) := by decide +kernel
  obtain ⟨hpair, hbench⟩ :=
    stops_in_a_row Script.respond {} oddChain [⟨0⟩, ⟨2⟩, ⟨0⟩] [] ⟨2⟩ ⟨2⟩ (m := benchMaster) rfl hb
  obtain ⟨hodd, hsingle⟩ := (hpair hrow).mp hasks
  exact ⟨hb, hrow, hodd, hsingle, hbench hresult⟩

/-- A slave that acknowledges and never stalls does not save the chain: the stop is asked for before
the only byte of its last read, and again before the byte beyond it. -/
theorem invalid_write_of_oddChain :
    let slave := Bench.Slave.ofDevice (.registers [(16, 5)])
    let o := (Transaction.serve [⟨0⟩, ⟨2⟩, ⟨0⟩] (.start oddChain)).run Script.respond {}
    let o₁ := (o.value.onEvent ⟨2⟩).run Script.respond o.state
    let o₂ := (o₁.value.onEvent ⟨2⟩).run Script.respond o₁.state
    Message.Valid oddChain ∧
      (traffic o₁.trace = [.bare FifoWord.stop.bits, .pulled 0xee] ∧
        traffic o₂.trace = [.bare FifoWord.stop.bits, .pulled 0xee]) ∧
      (pairBench.slaves.get 0x48 = some slave ∧ slave.acknowledges = true ∧
        slave.stallAfter = none) ∧
      ((benchMaster.transact oddChain).run respond pairBench).value.result =
        .error (.halted .invalidWrite) := by
  intro slave o o₁ o₂
  refine ⟨by decide, by decide, ⟨ByteTable.get_set_self _ _ _, rfl, rfl⟩, by decide +kernel⟩

end Master
end TwoWire
