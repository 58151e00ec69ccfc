import TwoWire.Board
import TwoWire.Proofs.Ledger
import TwoWire.Proofs.Observation
import TwoWire.Proofs.Progress
import TwoWire.Script
/-!
# What an answer reports

The answer of a transaction is told by its record. A fault is reported exactly if it is that of the
first faulty sample and the bus came to rest or could be freed: a wait that was given up on a bus
that stays busy hides it. An answer counts fewer messages than the chain has either after a long
wait in which no byte moved or, at once, after a single poll that found the bus idle and no event.
-/
namespace TwoWire

namespace Transaction

/-! ## What the phase says -/

/-- A transaction that says that it is complete has moved every message. -/
def Closed (t : Transaction) : Prop :=
  t.phase = .transactionComplete → t.completed = t.chain.length

theorem completed_eq_length_iff {t : Transaction} (h : t.Fits) :
    t.completed = t.chain.length ↔ t.messagesLeft = 1 ∧ t.position.isSome ∧ t.left = 0 := by
  obtain ⟨m, hm, -⟩ := h
  obtain ⟨hlt, -⟩ := List.getElem?_eq_some_iff.mp hm
  unfold completed messagesLeft
  constructor
  · intro hc
    split at hc
    · rename_i hdone
      exact ⟨by omega, hdone.2⟩
    · omega
  · rintro ⟨hlast, hdone⟩
    rw [if_pos ⟨hlt, hdone⟩]
    omega

theorem Feeds.closed {status : Status} {t fed : Transaction} {out : List Beat} {sending : Bool}
    (hfits : t.Fits) (h : t.Closed) (hf : t.Feeds status out sending fed) : fed.Closed := by
  cases hf with
  | full _ => exact h
  | spent _ _ => exact h
  | sends _ next =>
    intro hphase
    rw [phase_sent] at hphase
    obtain ⟨-, hposition, hleft⟩ := (completed_eq_length_iff hfits).mp (h hphase)
    obtain ⟨position, hp⟩ := Option.isSome_iff_exists.mp hposition
    have := left_pos_of_nextWord? next hp
    omega

theorem Drains.closed {status : Status} {t drained : Transaction} {inward : List Beat}
    (hfits : t.Fits) (h : t.Closed) (hd : t.Drains status inward drained) : drained.Closed := by
  cases hd with
  | empty _ => exact h
  | stores _ slot _ =>
    intro hphase
    obtain ⟨-, -, hleft⟩ := (completed_eq_length_iff hfits).mp (h hphase)
    have := (slot?_eq_some slot).2
    omega
  | discards _ _ _ =>
    unfold discarded
    split <;> exact h

theorem closed_advance {t : Transaction} (sending : Bool) (hfits : t.Fits) (h : t.Closed) :
    (t.advance sending).Closed := by
  obtain ⟨m, hm, -⟩ := id hfits
  obtain ⟨hlt, -⟩ := List.getElem?_eq_some_iff.mp hm
  unfold advance
  split
  case isFalse => exact h
  rename_i hposition
  split
  case isFalse => exact nofun
  rename_i hleft
  split
  case isTrue => exact nofun
  rename_i hone
  have hall : t.completed = t.chain.length := by
    apply (completed_eq_length_iff hfits).mpr
    refine ⟨?_, hposition, hleft⟩
    unfold messagesLeft at hone ⊢
    omega
  split
  · exact fun _ => hall
  · split
    · exact nofun
    · exact fun _ => hall

/-- What holds of a transaction on a chain after any events: a ledger can be kept of it, it is
halted exactly if it has a fault, and it is complete if it says so. -/
structure Sound (chain : List Message) (t : Transaction) : Prop where
  booked : ∃ moves, Ledger chain moves t
  halted : t.phase = .halted ↔ t.fault.isSome
  closed : t.Closed

theorem sound_start {chain : List Message} (h : chain ≠ []) : (start chain).Sound chain where
  booked := ⟨[], .start h⟩
  halted := by simp [start]
  closed := nofun

namespace Sound

variable {chain : List Message} {t : Transaction}

theorem length_chain (h : t.Sound chain) : t.chain.length = chain.length := by
  obtain ⟨moves, hledger⟩ := h.booked
  exact hledger.length_chain

/-- Only a fault makes a transaction inert. -/
theorem isInert_iff (h : t.Sound chain) : t.isInert ↔ t.fault.isSome := by
  obtain ⟨moves, hledger⟩ := h.booked
  obtain ⟨m, hm, -⟩ := hledger.fits
  obtain ⟨hlt, -⟩ := List.getElem?_eq_some_iff.mp hm
  rw [← h.halted, isInert, decide_eq_true_eq]
  exact or_iff_left (Nat.not_le.mpr hlt)

/-- An event keeps a transaction sound, and the fault is that of the first faulty sample. -/
theorem handles {status : Status} {beats : List Beat} {t' : Transaction} (h : t.Sound chain)
    (he : t.Handles status beats t') :
    t'.Sound chain ∧ t'.fault = t.fault.or status.fault? := by
  obtain ⟨moves, hledger⟩ := h.booked
  obtain ⟨more, -, hbooked⟩ := hledger.handles he
  have hnone : ¬ t.isInert → t.fault = none := by
    intro hlive
    rw [h.isInert_iff, Option.not_isSome_iff_eq_none] at hlive
    exact hlive
  cases he with
  | inert hinert =>
    obtain ⟨fault, hf⟩ := Option.isSome_iff_exists.mp (h.isInert_iff.mp hinert)
    refine ⟨h, ?_⟩
    rw [hf, Option.some_or]
  | halts hlive hfault =>
    refine ⟨⟨⟨_, hbooked⟩, by simp [halt], nofun⟩, ?_⟩
    rw [hnone hlive, hfault]
    rfl
  | @moves hlive hclean _ _ sending fed drained feeds drains =>
    obtain ⟨sent, -, hfed⟩ := hledger.feeds feeds
    obtain ⟨pulled, -, hdrained⟩ := hfed.drains drains
    have hphase : drained.phase = t.phase := by
      have hfirst : fed.phase = t.phase := by cases feeds <;> simp
      rw [← hfirst]
      cases drains with
      | discards _ _ _ => unfold discarded; split <;> rfl
      | _ => rfl
    have hfault : drained.fault = t.fault := by
      have hfirst : fed.fault = t.fault := by cases feeds <;> simp
      rw [← hfirst]
      cases drains with
      | discards _ _ _ => unfold discarded; split <;> rfl
      | _ => rfl
    have hrunning : t.phase ≠ .halted := by
      intro hp
      have := h.halted.mp hp
      rw [hnone hlive] at this
      cases this
    have hgoes := phase_advance sending (hphase.symm ▸ hrunning)
    refine ⟨⟨⟨_, hbooked⟩, ?_, ?_⟩, ?_⟩
    · rw [fault_advance, hfault, hnone hlive]
      exact iff_of_false hgoes nofun
    · exact closed_advance sending hdrained.fits
        (drains.closed hfed.fits (feeds.closed hledger.fits h.closed))
    · rw [fault_advance, hfault, hclean, Option.or_none]

theorem onEvent {status : Status} {t' : Transaction} (h : t.Sound chain)
    (he : (t.onEvent status).Returns t') :
    t'.Sound chain ∧ t'.fault = t.fault.or status.fault? := by
  obtain ⟨trace, hexec⟩ := Program.executes_of_returns he
  obtain ⟨beats, -, hhandles⟩ := handles_of_executes hexec
  exact h.handles hhandles

end Sound
end Transaction

namespace Session
open Program

/-! ## Polls -/

/-- The poll found the bus idle without an event: it ended the wait and looked no further. -/
def Sighting.IsUnasked (s : Sighting) : Prop := s.pending = false ∧ s.status.isBusy = false

/-- What a poll shows of the transaction that it leaves. -/
structure Sighting.Shows (s : Sighting) (chain : List Message) (t : Transaction)
    (seen : Watched) : Prop where
  sound : seen.transaction.Sound chain
  fault : seen.transaction.fault = t.fault.or s.status.fault?
  quiet : s.quiet = seen.quiet
  moved : s.moved = (seen.transaction.moved != t.moved)
  unasked : seen.quiet = true → seen.transaction.fault = none →
    seen.transaction.completed < chain.length → s.IsUnasked

variable {bus : Bus} {chain : List Message} {t : Transaction} {idle : Nat}

/-- A terminal phase comes of a fault or of having moved every message. -/
theorem terminal_cases (h : t.Sound chain) (hterminal : t.phase.isTerminal = true) :
    t.fault.isSome ∨ t.completed = chain.length := by
  cases hphase : t.phase with
  | halted => exact .inl (h.halted.mp hphase)
  | transactionComplete =>
    right
    rw [← h.length_chain]
    exact h.closed hphase
  | awaitingAddress => rw [hphase] at hterminal; cases hterminal
  | transferring => rw [hphase] at hterminal; cases hterminal
  | messageComplete => rw [hphase] at hterminal; cases hterminal

theorem shows_of_returns {seen : Watched} {sighting : Sighting} (ht : t.Sound chain)
    (h : (Observed.poll bus t).Returns (seen, sighting)) : sighting.Shows chain t seen := by
  simp only [Observed.poll, returns_bind] at h
  obtain ⟨pending, -, status, -, h⟩ := h
  split at h
  · simp only [returns_bind, returns_pure] at h
    obtain ⟨next, hnext, heq⟩ := h
    cases heq
    obtain ⟨hsound, hfault⟩ := ht.onEvent hnext
    refine ⟨hsound, hfault, rfl, rfl, fun hquiet hclean hshort => ?_⟩
    -- an event that ends the wait leaves nothing to be moved, unless it failed
    have hterminal := (Bool.and_eq_true_iff.mp hquiet).2
    rcases terminal_cases hsound hterminal with hfaulty | hall
    · rw [hclean] at hfaulty
      cases hfaulty
    · exact absurd hall (Nat.ne_of_lt hshort)
  · rename_i hunasked
    rw [Bool.not_eq_true, Bool.or_eq_false_iff] at hunasked
    cases returns_pure.mp h
    have hclean := Option.isSome_eq_false_iff.mp hunasked.2
    rw [Option.isNone_iff_eq_none] at hclean
    refine ⟨ht, ?_, rfl, ?_, fun hquiet _ _ => ⟨hunasked.1, by simpa using hquiet⟩⟩
    · rw [hclean, Option.or_none]
    · exact (bne_self_eq_false t.moved).symm

/-! ## Waits -/

/-- The first fault among samples. -/
def firstFault (samples : List Status) : Option Fault := samples.findSome? Status.fault?

theorem firstFault_cons (first : Status) (rest : List Status) :
    firstFault (first :: rest) = first.fault?.or (firstFault rest) := by
  unfold firstFault
  rw [List.findSome?_cons]
  cases first.fault? <;> rfl

/-- A poll in front of a wait. -/
theorem Sighting.Shows.wait {seen last : Watched} {sighting : Sighting} {samples : List Status}
    (h : sighting.Shows chain t seen)
    (hf : last.transaction.fault = seen.transaction.fault.or (firstFault samples)) :
    last.transaction.fault = t.fault.or (firstFault (sighting.status :: samples)) := by
  rw [hf, h.fault, Option.or_assoc, firstFault_cons]

/-- After a wait the fault is the first one of its samples, unless there was one before. -/
theorem Observed.Waits.sound {sightings : List Sighting} {last : Watched}
    (h : Observed.Waits bus idle t sightings last) (ht : t.Sound chain) :
    last.transaction.Sound chain ∧
      last.transaction.fault = t.fault.or (firstFault (sightings.map Sighting.status)) := by
  induction h with
  | ended _ reached _ =>
    have hshows := shows_of_returns ht reached
    exact ⟨hshows.sound, hshows.wait Option.or_none.symm⟩
  | still _ reached _ _ _ ih =>
    have hshows := shows_of_returns ht reached
    obtain ⟨hsound, hfault⟩ := ih hshows.sound
    exact ⟨hsound, hshows.wait hfault⟩
  | moved _ reached _ _ _ ih =>
    have hshows := shows_of_returns ht reached
    obtain ⟨hsound, hfault⟩ := ih hshows.sound
    exact ⟨hsound, hshows.wait hfault⟩
  | givenUp _ => exact ⟨ht, Option.or_none.symm⟩

/-- A wait that ends at rest ends with the first poll that finds it. That poll was not asked by an
event if it leaves messages behind without a fault. -/
theorem Observed.Waits.ended_at_rest {sightings : List Sighting} {last : Watched}
    (h : Observed.Waits bus idle t sightings last) (ht : t.Sound chain)
    (hquiet : last.quiet = true) :
    ∃ before sighting, sightings = before ++ [sighting] ∧ sighting.quiet = true ∧
      (last.transaction.fault = none → last.transaction.completed < chain.length →
        sighting.IsUnasked) := by
  induction h with
  | ended _ reached _ =>
    have hshows := shows_of_returns ht reached
    exact ⟨[], _, rfl, hshows.quiet.trans hquiet, hshows.unasked hquiet⟩
  | still _ reached _ _ _ ih =>
    obtain ⟨before, sighting, rfl, hend⟩ := ih (shows_of_returns ht reached).sound hquiet
    exact ⟨_ :: before, sighting, rfl, hend⟩
  | moved _ reached _ _ _ ih =>
    obtain ⟨before, sighting, rfl, hend⟩ := ih (shows_of_returns ht reached).sound hquiet
    exact ⟨_ :: before, sighting, rfl, hend⟩
  | givenUp _ => cases hquiet

/-- Polls in a row that moved no byte and did not find the bus at rest. -/
def Fruitless (sightings : List Sighting) : Prop :=
  ∀ s ∈ sightings, s.moved = false ∧ s.quiet = false

/-- A wait that is given up ends with as many fruitless polls as the limit allows, those before it
included. -/
theorem Observed.Waits.given_up {sightings : List Sighting} {last : Watched}
    (h : Observed.Waits bus idle t sightings last) (ht : t.Sound chain)
    (hidle : idle ≤ pollLimit) (hbusy : last.quiet = false) :
    (idle + sightings.length = pollLimit ∧ Fruitless sightings) ∨
      ∃ before still, sightings = before ++ still ∧ still.length = pollLimit ∧
        Fruitless still := by
  induction h with
  | ended _ _ quiet => exact absurd (quiet.symm.trans hbusy) nofun
  | @still idle t seen _ sighting sightings early reached busy same _ ih =>
    have hshows := shows_of_returns ht reached
    rcases ih hshows.sound early hbusy with ⟨hcount, hall⟩ | ⟨before, still, rfl, hend⟩
    · left
      refine ⟨by rw [List.length_cons]; omega, ?_⟩
      intro s hs
      rcases List.mem_cons.mp hs with rfl | hs
      · refine ⟨?_, hshows.quiet.trans busy⟩
        rw [hshows.moved, same]
        exact bne_self_eq_false t.moved
      · exact hall s hs
    · exact .inr ⟨sighting :: before, still, rfl, hend⟩
  | @moved _ _ _ _ sighting sightings _ reached _ _ _ ih =>
    have hshows := shows_of_returns ht reached
    right
    rcases ih hshows.sound (Nat.zero_le _) hbusy with ⟨hcount, hall⟩ | ⟨before, still, rfl, hend⟩
    · rw [Nat.zero_add] at hcount
      exact ⟨[sighting], sightings, rfl, hcount, hall⟩
    · exact ⟨sighting :: before, still, rfl, hend⟩
  | givenUp late => exact .inl ⟨by rw [List.length_nil]; omega, nofun⟩

/-! ## Records -/

/-- The last element of a list is in each end of it. -/
theorem mem_of_append_eq_concat {α : Type} {before rest front : List α} {last : α}
    (h : before ++ rest = front ++ [last]) (hne : rest ≠ []) : last ∈ rest := by
  rcases List.eq_nil_or_concat rest with rfl | ⟨init, other, rfl⟩
  · exact absurd rfl hne
  · rw [List.concat_eq_append, ← List.append_assoc] at h
    obtain ⟨-, hlast⟩ := List.append_inj' h rfl
    cases hlast
    simp

namespace Record

/-- The first fault among the samples that the transaction could learn of. -/
def fault? (r : Record) : Option Fault := firstFault (r.first :: r.sightings.map Sighting.status)

/-- The wait was given up: it ends with as many fruitless polls as the limit allows. -/
def GivenUp (r : Record) : Prop :=
  ∃ before still, r.sightings = before ++ still ∧ still.length = pollLimit ∧ Fruitless still

/-- A wait that a poll ended was not given up. -/
theorem not_givenUp {r : Record} {before : List Sighting} {last : Sighting}
    (h : r.sightings = before ++ [last]) (hquiet : last.quiet = true) : ¬ r.GivenUp := by
  rintro ⟨front, still, hsplit, hlength, hfruitless⟩
  have hmem : last ∈ still := by
    apply mem_of_append_eq_concat (hsplit.symm.trans h)
    rintro rfl
    cases hlength
  exact absurd (hquiet.symm.trans (hfruitless last hmem).2) nofun

/-- The wait was ended by a poll that found the bus idle and no event. -/
def EndedUnasked (r : Record) : Prop :=
  ∃ before last, r.sightings = before ++ [last] ∧ last.quiet = true ∧ last.IsUnasked

/-- Messages moved in full. -/
def completed (r : Record) : Nat := r.watched.transaction.completed

/-- The record fits a transaction on the chain. -/
structure Faithful (chain : List Message) (r : Record) : Prop where
  fault : r.watched.transaction.fault = r.fault?
  givenUp : r.GivenUp ↔ r.watched.quiet = false
  unasked : r.watched.quiet = true → r.fault? = none → r.completed < chain.length →
    r.EndedUnasked

/-- The result of a transaction, told by its record. -/
def result (r : Record) : Except Error Nat :=
  if r.watched.quiet || r.freed then
    match r.fault? with
    | some fault => .error (.halted fault)
    | none => .ok r.completed
  else .error .busBusy

end Record

/-- The wait for a transaction that was begun with an event leaves a faithful record. -/
theorem faithful_of_waits {status : Status} {primed : Transaction} {sightings : List Sighting}
    {watched : Watched} (hc : chain ≠ [])
    (hprimed : ((Transaction.start chain).onEvent status).Returns primed)
    (h : Observed.Waits bus 0 primed sightings watched) (freed : Bool) :
    Record.Faithful chain ⟨status, sightings, watched, freed⟩ := by
  obtain ⟨hsound, hfirst⟩ := (Transaction.sound_start hc).onEvent hprimed
  obtain ⟨-, hfault⟩ := h.sound hsound
  have hall : watched.transaction.fault =
      firstFault (status :: sightings.map Sighting.status) := by
    rw [hfault, hfirst, firstFault_cons]
    rfl
  refine ⟨hall, ⟨?_, ?_⟩, ?_⟩
  · intro hgiven
    cases hquiet : watched.quiet with
    | false => rfl
    | true =>
      obtain ⟨before, last, hend, hlast, -⟩ := h.ended_at_rest hsound hquiet
      exact absurd hgiven (Record.not_givenUp hend hlast)
  · intro hbusy
    rcases h.given_up hsound (Nat.zero_le _) hbusy with ⟨hcount, hfruitless⟩ | hend
    · rw [Nat.zero_add] at hcount
      exact ⟨[], sightings, rfl, hcount, hfruitless⟩
    · exact hend
  · intro hquiet hclean hshort
    obtain ⟨before, last, hend, hlast, hunasked⟩ := h.ended_at_rest hsound hquiet
    exact ⟨before, last, hend, hlast, hunasked (hall.trans hclean) hshort⟩

theorem result_of_conclude {answer : Answer Nat} (h : (conclude bus t).Returns answer) :
    answer.result = match t.fault with
      | some fault => .error (.halted fault)
      | none => .ok t.completed := by
  unfold conclude at h
  cases hfault : t.fault with
  | some fault =>
    simp only [hfault, returns_bind, returns_pure] at h
    obtain ⟨_, _, _, _, rfl⟩ := h
    rfl
  | none =>
    simp only [hfault, returns_bind, returns_pure] at h
    obtain ⟨_, _, rfl⟩ := h
    rfl

/-- A transaction that was begun has a faithful record, and the record tells the result. -/
theorem result_of_carry {answer : Answer Nat} {r : Record} (hc : chain ≠ [])
    (h : (Observed.carry bus chain).Returns (answer, r)) :
    r.Faithful chain ∧ answer.result = r.result := by
  simp only [Observed.carry, returns_bind] at h
  obtain ⟨status, -, primed, hprimed, ⟨watched, sightings⟩, hsettle, _, -, h⟩ := h
  obtain ⟨_, rfl, hwaits⟩ := Observed.waits_of_returns hsettle
  have hfaithful := faithful_of_waits hc hprimed hwaits
  split at h
  · rename_i hquiet
    simp only [returns_bind, returns_pure] at h
    obtain ⟨answer', hconclude, heq⟩ := h
    cases heq
    refine ⟨hfaithful _, ?_⟩
    rw [result_of_conclude hconclude, Record.result, if_pos (by rw [hquiet]; rfl),
      (hfaithful false).fault]
    rfl
  · rename_i hbusy
    rw [Bool.not_eq_true] at hbusy
    simp only [Observed.abandon, returns_bind] at h
    obtain ⟨⟨answer', freed⟩, ⟨_, -, cleared, -, habandon⟩, hpure⟩ := h
    cases returns_pure.mp hpure
    refine ⟨hfaithful _, ?_⟩
    cases cleared with
    | error _ =>
      cases returns_pure.mp habandon
      rw [Record.result, if_neg (by rw [hbusy]; exact Bool.false_ne_true)]
    | ok _ =>
      simp only [returns_bind, returns_pure] at habandon
      obtain ⟨answer'', hconclude, heq⟩ := habandon
      cases heq
      rw [result_of_conclude hconclude, Record.result, if_pos (Bool.or_true _)]
      change (match watched.transaction.fault with | some fault => _ | none => _) = _
      rw [(hfaithful true).fault]
      rfl

/-- The results of a call that begins no transaction. -/
def NotBegun (result : Except Error Nat) : Prop :=
  result = .error .notReady ∨ result = .error .invalidChain ∨ result = .error .noClock

theorem error_of_clear {error : Error} (h : (clear bus).Returns (.error error)) :
    error = .notReady := by
  simp only [clear, returns_bind] at h
  obtain ⟨cleared, -, h⟩ := h
  split at h
  · cases returns_pure.mp h
  · simp only [returns_bind, returns_pure] at h
    obtain ⟨_, _, heq⟩ := h
    cases heq
  · simp only [returns_bind, returns_pure] at h
    obtain ⟨_, _, _, _, heq⟩ := h
    cases heq
    rfl

/-- What a record, or that there is none, says of the answer it came with. -/
def Tells (chain : List Message) (answer : Answer Nat) : Option Record → Prop
  | some r => r.Faithful chain ∧ answer.result = r.result
  | none => NotBegun answer.result

theorem tells_of_transact {answer : Answer Nat} {record : Option Record} (hc : chain ≠ [])
    (h : (Observed.transact bus chain).Returns (answer, record)) : Tells chain answer record := by
  have hcarry : ∀ {answer record},
      (Prod.map id some <$> Observed.carry bus chain : Program _).Returns (answer, record) →
      Tells chain answer record := by
    intro answer record h
    obtain ⟨⟨answer', r⟩, hr, heq⟩ := returns_map.mp h
    cases heq
    exact result_of_carry hc hr
  simp only [Observed.transact, returns_bind] at h
  obtain ⟨idle, -, h⟩ := h
  split at h
  · exact hcarry h
  · rw [returns_bind] at h
    obtain ⟨cleared, hclear, h⟩ := h
    cases cleared with
    | ok _ => exact hcarry h
    | error error =>
      cases returns_pure.mp h
      exact .inl (congrArg Except.error (error_of_clear hclear))

end Session

namespace Master
open Program Session

variable {σ : Type} (hw : Hardware σ) (s : σ) (m : Master) (chain : List Message)

/-- The record of a call tells its result. -/
theorem tells_observe :
    let o := (m.observe chain).run hw s
    Tells chain o.value.1 o.value.2 := by
  intro o
  have h : (m.observe chain).Returns o.value := returns_value_run hw _ s
  unfold observe at h
  split at h
  case isFalse =>
    simp only [returns_bind, returns_pure] at h
    obtain ⟨_, -, h⟩ := h
    rw [h]
    exact .inl rfl
  split at h
  case isFalse =>
    rw [returns_pure.mp h]
    exact .inr (.inl rfl)
  rename_i hvalid
  simp only [hold, returns_bind] at h
  obtain ⟨granted, -, h⟩ := h
  split at h
  · simp only [returns_bind, returns_pure] at h
    obtain ⟨_, -, result, hresult, _, -, _, -, heq⟩ := h
    rw [heq]
    exact tells_of_transact hvalid.1 hresult
  · rw [returns_pure.mp h]
    exact .inr (.inr rfl)

/-- A fault is reported if it is that of the first faulty sample which the transaction could learn
of, and the wait came to an end or the bus was freed after it. If the wait was given up on a bus
that stayed busy, the fault is lost. -/
theorem transact_reports_fault_iff (m : Master) (chain : List Message) (fault : Fault) :
    let o := (m.observe chain).run hw s
    (m.transact chain).run hw s = ⟨o.value.1, o.state, o.trace, o.log⟩ ∧
      (o.value.2 = none → NotBegun o.value.1.result) ∧
      (o.value.1.result = .error (.halted fault) ↔
        ∃ r, o.value.2 = some r ∧ r.fault? = some fault ∧ (r.GivenUp → r.freed = true)) ∧
      ∀ r, o.value.2 = some r → r.fault? = some fault → r.GivenUp → r.freed = false →
        o.value.1.result = .error .busBusy := by
  intro o
  have htells : Tells chain o.value.1 o.value.2 := tells_observe hw s m chain
  refine ⟨run_transact hw s m chain, ?_⟩
  cases hrecord : o.value.2 with
  | none =>
    rw [hrecord] at htells
    refine ⟨fun _ => htells, ⟨?_, ?_⟩, ?_⟩
    · intro hresult
      rcases htells with h | h | h <;> cases hresult.symm.trans h
    · rintro ⟨r, hsome, -⟩
      cases hsome
    · intro r hsome
      cases hsome
  | some r =>
    rw [hrecord] at htells
    obtain ⟨hfaithful, hresult⟩ := htells
    rw [hresult, Record.result]
    refine ⟨nofun, ⟨?_, ?_⟩, ?_⟩
    · intro hreported
      split at hreported
      · rename_i hended
        split at hreported
        · rename_i hfault
          cases hreported
          refine ⟨r, rfl, hfault, fun hgiven => ?_⟩
          rwa [hfaithful.givenUp.mp hgiven, Bool.false_or] at hended
        · cases hreported
      · cases hreported
    · rintro ⟨_, heq, hfault, hfreed⟩
      cases heq
      have hended : (r.watched.quiet || r.freed) = true := by
        cases hquiet : r.watched.quiet with
        | true => rfl
        | false => exact hfreed (hfaithful.givenUp.mpr hquiet)
      rw [if_pos hended, hfault]
    · intro _ heq _ hgiven hfreed
      cases heq
      rw [hfaithful.givenUp.mp hgiven, hfreed]
      rfl

/-- A call answers with fewer messages than the chain has exactly if no sample was faulty, some
message was not moved in full, and either the wait was given up after a long run of polls that moved
no byte and the bus was freed then, or the last poll found the bus idle and no event pending. -/
theorem transact_falls_short_iff (m : Master) (chain : List Message) :
    let o := (m.observe chain).run hw s
    (m.transact chain).run hw s = ⟨o.value.1, o.state, o.trace, o.log⟩ ∧
      ((∃ completed < chain.length, o.value.1.result = .ok completed) ↔
        ∃ r, o.value.2 = some r ∧ r.fault? = none ∧ r.completed < chain.length ∧
          (r.GivenUp ∧ r.freed = true ∨ r.EndedUnasked)) := by
  intro o
  have htells : Tells chain o.value.1 o.value.2 := tells_observe hw s m chain
  refine ⟨run_transact hw s m chain, ?_⟩
  cases hrecord : o.value.2 with
  | none =>
    rw [hrecord] at htells
    constructor
    · rintro ⟨completed, -, hresult⟩
      rcases htells with h | h | h <;> cases hresult.symm.trans h
    · rintro ⟨r, hsome, -⟩
      cases hsome
  | some r =>
    rw [hrecord] at htells
    obtain ⟨hfaithful, hresult⟩ := htells
    rw [hresult, Record.result]
    constructor
    · rintro ⟨completed, hshort, hanswer⟩
      split at hanswer
      case isFalse => cases hanswer
      rename_i hended
      split at hanswer
      case h_1 => cases hanswer
      rename_i hclean
      cases hanswer
      refine ⟨r, rfl, hclean, hshort, ?_⟩
      cases hquiet : r.watched.quiet with
      | true => exact .inr (hfaithful.unasked hquiet hclean hshort)
      | false =>
        rw [hquiet, Bool.false_or] at hended
        exact .inl ⟨hfaithful.givenUp.mpr hquiet, hended⟩
    · rintro ⟨_, heq, hclean, hshort, hend⟩
      cases heq
      have hended : (r.watched.quiet || r.freed) = true := by
        rcases hend with ⟨-, hfreed⟩ | ⟨before, last, hlast, hquiet, -⟩
        · rw [hfreed, Bool.or_true]
        · have hrest := mt hfaithful.givenUp.mpr (Record.not_givenUp hlast hquiet)
          rw [Bool.not_eq_false] at hrest
          rw [hrest, Bool.true_or]
      refine ⟨r.completed, hshort, ?_⟩
      rw [if_pos hended, hclean]

/-- An installed master on the board's own bus. -/
def boardMaster : Master := ⟨⟨Board.busConfig, .silent⟩, true⟩

/-- The first sample of the transaction reports that a byte was refused, and the bus is busy from
then on. -/
def refusedAndBusy : Script := { status := .ofRuns [(0, 1), (0x108, 1), (0x100, 1)] }

/-- The fault of the first sample is not reported. -/
theorem fault_lost_on_busy_bus :
    let chain := [Message.write 0x48 [1]]
    let o := (boardMaster.observe chain).run Script.respond refusedAndBusy
    Message.Valid chain ∧ o.value.2.bind Record.fault? = some .nack ∧
      ((boardMaster.transact chain).run Script.respond refusedAndBusy).value.result =
        .error .busBusy := by
  decide +kernel

/-- No event is pending at the first poll of the wait, and one is at every later poll. -/
def lateEvents : Script := { pending := .ofRuns [(false, 2), (true, 1)] }

/-- The wait is over with its first poll, and nothing of the message has been moved. -/
theorem falls_short_after_one_poll :
    let chain := [Message.write 0x48 [1]]
    let o := (boardMaster.observe chain).run Script.respond lateEvents
    Message.Valid chain ∧ o.value.2.bind Record.fault? = none ∧
      o.value.2.map (fun r => r.sightings) = some [⟨false, ⟨0⟩, false, true⟩] ∧
      ((boardMaster.transact chain).run Script.respond lateEvents).value.result = .ok 0 := by
  decide +kernel

end Master
end TwoWire
