import TwoWire.Proofs.Ledger
import TwoWire.Script
/-!
# Stale bytes

One event can send the address of a message and take a byte from the read queue, and both rest on the
same sample. A byte that the sample announced was there before the address went out, so it is no answer
to it. If the address is that of a read, the byte is stored nevertheless; in every other event that
begins before an address goes out, the byte is thrown away.
-/
namespace TwoWire.Transaction

variable {chain : List Message} {moves : List Move} {t t' : Transaction} {status : Status}

/-! ## One event -/

/-- The sample lets the pending address of a read go out and announces a byte besides. -/
structure Overlaps (t : Transaction) (status : Status) : Prop where
  live : t.isInert = false
  clean : status.fault? = none
  room : status.has .writeFull = false
  announced : status.has .readFull = true
  pending : t.position = none
  read : ∃ m, t.chain[t.current]? = some m ∧ m.isRead ∧ 0 < m.length

/-- From `t` to `t'` a byte is stored into a read of the chain, although at `t` that read was not the
current message with its address sent. -/
def StoresAhead (chain : List Message) (t t' : Transaction) : Prop :=
  ∃ j m, chain[j]? = some m ∧ m.isRead ∧ t.dataMoved j m.length < t'.dataMoved j m.length ∧
    ¬ (t.current = j ∧ t.position.isSome)

theorem not_storesAhead_of_eq
    (h : ∀ j m, chain[j]? = some m → m.isRead → t'.dataMoved j m.length = t.dataMoved j m.length) :
    ¬ StoresAhead chain t t' := by
  rintro ⟨j, m, hm, hr, hlt, -⟩
  rw [h j m hm hr] at hlt
  exact Nat.lt_irrefl _ hlt

theorem slot?_of_pending (h : t.position = none) : t.slot? = none := by
  unfold slot?
  rw [h]
  split
  · contradiction
  · rfl

/-- A byte finds a slot in the current read once the address has gone out. -/
theorem slot?_sent_of_pending {m : Message} (hfits : t.Fits) (hm : t.chain[t.current]? = some m)
    (hp : t.position = none) : t.sent.slot? = some 0 ↔ m.isRead ∧ 0 < m.length := by
  obtain ⟨m', hm', hl⟩ := hfits
  obtain rfl : m' = m := Option.some.inj (hm'.symm.trans hm)
  have hsent : t.sent.chain[t.sent.current]? = some m' := by
    rw [chain_sent, current_sent, hm]
  have hleft : t.sent.left = t.left := by simp [sent, hp]
  rw [hp, Option.getD_none, Nat.zero_add] at hl
  rw [slot?_eq_some_iff hsent, hleft, hl]
  simp [sent, hp]

/-- What the sending half makes of a pending address. -/
theorem Feeds.of_pending {out : List Beat} {sending : Bool} {fed : Transaction} (hfits : t.Fits)
    (hp : t.position = none) (hf : t.Feeds status out sending fed) :
    status.has .writeFull = true ∧ out = [] ∧ fed = t ∨
      status.has .writeFull = false ∧ fed = t.sent ∧
        ∃ word, t.nextWord? = some word ∧ out = [.paced word.bits] := by
  obtain ⟨m, hm, -⟩ := hfits
  cases hf with
  | full hfull => exact .inl ⟨hfull, rfl, rfl⟩
  | spent _ last =>
    rw [nextWord?_of_none hm hp] at last
    cases last
  | sends hfree next => exact .inr ⟨Bool.not_eq_true _ ▸ hfree, rfl, _, next, rfl⟩

/-- An event overlaps if it takes a byte for which its own sending half has made a slot. -/
theorem overlaps_iff {out : List Beat} {sending : Bool} {fed : Transaction} (hfits : t.Fits)
    (hlive : ¬ t.isInert) (hclean : status.fault? = none) (hf : t.Feeds status out sending fed) :
    t.Overlaps status ↔
      status.has .readFull = true ∧ t.position = none ∧ fed.slot?.isSome := by
  constructor
  · rintro ⟨-, -, hroom, hannounced, hp, m, hm, hread⟩
    refine ⟨hannounced, hp, ?_⟩
    rcases hf.of_pending hfits hp with ⟨hfull, -⟩ | ⟨-, rfl, -⟩
    · rw [hroom] at hfull
      cases hfull
    · rw [(slot?_sent_of_pending hfits hm hp).mpr hread]
      rfl
  · rintro ⟨hannounced, hp, hslot⟩
    obtain ⟨m, hm, hl⟩ := hfits
    rcases hf.of_pending ⟨m, hm, hl⟩ hp with ⟨-, -, rfl⟩ | ⟨hroom, rfl, -⟩
    · rw [slot?_of_pending hp] at hslot
      cases hslot
    · obtain ⟨position, hslot⟩ := Option.isSome_iff_exists.mp hslot
      have hzero : position = 0 := by
        have := (slot?_eq_some hslot).1
        simpa [sent, hp] using this.symm
      subst hzero
      exact ⟨Bool.not_eq_true _ ▸ hlive, hclean, hroom, hannounced, hp, m, hm,
        (slot?_sent_of_pending ⟨m, hm, hl⟩ hm hp).mp hslot⟩

/-- The sending half stores nothing. -/
theorem Feeds.dataMoved {out : List Beat} {sending : Bool} {fed : Transaction}
    (h : Ledger chain moves t) (hf : t.Feeds status out sending fed) {j : Nat} {m : Message}
    (hm : chain[j]? = some m) (hr : m.isRead) :
    fed.dataMoved j m.length = t.dataMoved j m.length := by
  cases hf with
  | full _ => rfl
  | spent _ _ => rfl
  | sends _ next => exact dataMoved_sent m.length next fun _ => h.isRead hm hr

/-- A byte is stored ahead of its time by the events that overlap and by no others. -/
theorem Handles.storesAhead_iff {beats : List Beat}
    (hlive : t.isInert = false → ∃ moves, Ledger chain moves t) (he : t.Handles status beats t') :
    StoresAhead chain t t' ↔ t.Overlaps status := by
  cases he with
  | inert hinert =>
    refine iff_of_false (not_storesAhead_of_eq fun _ _ _ _ => rfl) fun hover => ?_
    rw [hover.live] at hinert
    cases hinert
  | halts _ faulty =>
    refine iff_of_false (not_storesAhead_of_eq fun _ _ _ _ => rfl) fun hover => ?_
    rw [hover.clean] at faulty
    cases faulty
  | @moves _ _ out inward sending fed drained feeds drains =>
    rename_i hlive' hclean
    obtain ⟨moves, h⟩ := hlive (Bool.not_eq_true _ ▸ hlive')
    obtain ⟨sent, -, hfed⟩ := h.feeds feeds
    obtain ⟨pulled, -, hdrained⟩ := hfed.drains drains
    have hdata : ∀ j m, chain[j]? = some m → m.isRead →
        (drained.advance sending).dataMoved j m.length = drained.dataMoved j m.length :=
      fun j m hm _ => hdrained.dataMoved_advance sending hm
    rw [overlaps_iff h.fits hlive' hclean feeds]
    cases drains with
    | empty hempty =>
      refine iff_of_false (not_storesAhead_of_eq fun j m hm hr => ?_) fun hover => hempty hover.1
      rw [hdata j m hm hr, feeds.dataMoved h hm hr]
    | discards _ slot byte =>
      refine iff_of_false (not_storesAhead_of_eq fun j m hm hr => ?_) fun hover => ?_
      · rw [hdata j m hm hr, dataMoved_discarded, feeds.dataMoved h hm hr]
      · rw [slot] at hover
        cases hover.2.2
    | @stores hfull position slot byte =>
      have hcurrent : fed.current = t.current := by
        cases feeds with
        | full _ => rfl
        | spent _ _ => rfl
        | sends _ _ => exact t.current_sent
      have hstored : ∀ j m, chain[j]? = some m → m.isRead →
          ((fed.received position byte).advance sending).dataMoved j m.length =
            t.dataMoved j m.length + if j = t.current then 1 else 0 := by
        intro j m hm hr
        rw [hdata j m hm hr, dataMoved_received byte _ _ slot, feeds.dataMoved h hm hr, hcurrent]
      have hslot : fed.slot?.isSome := Option.isSome_iff_exists.mpr ⟨position, slot⟩
      constructor
      · rintro ⟨j, m, hm, hr, hlt, hnot⟩
        rw [hstored j m hm hr] at hlt
        have hj : j = t.current := by
          split at hlt
          · assumption
          · exact absurd hlt (Nat.lt_irrefl _)
        refine ⟨hfull, ?_, hslot⟩
        rw [← Option.not_isSome_iff_eq_none]
        exact fun hsome => hnot ⟨hj.symm, hsome⟩
      · rintro ⟨-, hp, -⟩
        obtain ⟨m, hm, hfill, -⟩ := hfed.current
        obtain ⟨-, hr, -⟩ := (slot?_eq_some_iff hfill).mp slot
        rw [hcurrent] at hm
        rw [Message.isRead_fill] at hr
        refine ⟨t.current, m, hm, hr, ?_, ?_⟩
        · rw [hstored t.current m hm hr, if_pos rfl]
          exact Nat.lt_succ_self _
        · rw [hp]
          exact fun hsome => nomatch hsome.2

/-- What becomes of the byte of an event that began before an address went out: it is stored at the
beginning of the buffer, right after the address, or else nothing is stored and the byte is thrown
away. -/
structure PendingEvent (status : Status) (t : Transaction) (beats : List Beat) (t' : Transaction) :
    Prop where
  stored : t.Overlaps status → ∃ word byte, t.nextWord? = some word ∧
    beats = .paced word.bits :: (Controller.stopBeats (t.sent.stopDue 0) ++ [.pulled byte]) ∧
    t'.chain = t.chain.modify t.current fun m => m.store 0 byte
  kept : ¬ t.Overlaps status → t'.chain = t.chain
  refused : ¬ t.Overlaps status → t.isInert = false → status.fault? = none →
    status.has .readFull = true → t'.discardDue = false ∧
      t'.unrequested = if t.discardDue then t.unrequested else t.unrequested + 1

theorem Handles.pendingEvent {beats : List Beat} (hlive : t.isInert = false → t.Fits)
    (hp : t.position = none) (he : t.Handles status beats t') : PendingEvent status t beats t' := by
  cases he with
  | inert hinert =>
    refine ⟨fun hover => ?_, fun _ => rfl, fun _ hnot => ?_⟩
    · rw [hover.live] at hinert
      cases hinert
    · rw [hnot] at hinert
      cases hinert
  | halts _ faulty =>
    refine ⟨fun hover => ?_, fun _ => rfl, fun _ _ hclean => ?_⟩
    · rw [hover.clean] at faulty
      cases faulty
    · rw [hclean] at faulty
      cases faulty
  | @moves _ _ out inward sending fed drained feeds drains =>
    rename_i hlive' hclean
    have hfits := hlive (Bool.not_eq_true _ ▸ hlive')
    have hsame := feeds.same
    have hover := overlaps_iff hfits hlive' hclean feeds
    cases drains with
    | empty hempty =>
      refine ⟨fun h => absurd h.announced hempty, fun _ => ?_, fun _ _ _ h => absurd h hempty⟩
      rw [chain_advance, hsame.1]
    | discards _ slot byte =>
      obtain ⟨hchain, hdue, hunrequested⟩ := fed.discarded_eq
      refine ⟨fun h => ?_, fun _ => ?_, fun _ _ _ _ => ⟨?_, ?_⟩⟩
      · rw [hover, slot] at h
        cases h.2.2
      · rw [chain_advance, hchain, hsame.1]
      · rw [discardDue_advance, hdue]
      · rw [unrequested_advance, hunrequested, hsame.2.1, hsame.2.2]
    | @stores hfull position slot byte =>
      have hslot : fed.slot?.isSome := Option.isSome_iff_exists.mpr ⟨position, slot⟩
      have hoverlap : t.Overlaps status := hover.mpr ⟨hfull, hp, hslot⟩
      refine ⟨fun _ => ?_, fun hnot => absurd hoverlap hnot, fun hnot => absurd hoverlap hnot⟩
      rcases feeds.of_pending hfits hp with ⟨hbusy, -⟩ | ⟨-, rfl, word, hword, rfl⟩
      · rw [hoverlap.room] at hbusy
        cases hbusy
      · have hzero : position = 0 := by
          have := (slot?_eq_some slot).1
          simpa [sent, hp] using this.symm
        subst hzero
        refine ⟨word, byte, hword, rfl, ?_⟩
        rw [chain_advance, received, chain_sent, current_sent]

/-! ## Any number of events -/

/-- At some event a byte is stored into a read that was not yet current with its address sent. -/
def StoresStale {σ : Type} (hw : Hardware σ) (s : σ) (chain : List Message)
    (statuses : List Status) : Prop :=
  ∃ before status after, statuses = before ++ status :: after ∧
    let o := (serve before (start chain)).run hw s
    StoresAhead chain o.value ((o.value.onEvent status).run hw o.state).value

/-- A stale byte is stored exactly if some event begins with the address of a read pending, lets it
go out and finds a byte announced by the same sample. That byte becomes the first one of the buffer.
In every other event that begins with an address pending the buffers stay as they are, and the byte
is thrown away: as the one that was due, or as one that nobody asked for. -/
theorem storesStale_iff {σ : Type} (hw : Hardware σ) (s : σ) (chain : List Message)
    (statuses : List Status) :
    (StoresStale hw s chain statuses ↔
      ∃ before status after, statuses = before ++ status :: after ∧
        ((serve before (start chain)).run hw s).value.Overlaps status) ∧
    ∀ before status after, statuses = before ++ status :: after →
      let o := (serve before (start chain)).run hw s
      let next := (o.value.onEvent status).run hw o.state
      o.value.position = none → PendingEvent status o.value (traffic next.trace) next.value := by
  constructor
  · refine exists_congr fun before => exists_congr fun status => exists_congr fun after =>
      and_congr_right fun _ => ?_
    exact (handles_run hw _ _ status).storesAhead_iff (Ledger.of_live hw s before)
  · intro before status after _ o next hp
    refine (handles_run hw _ _ status).pendingEvent (fun hlive => ?_) hp
    obtain ⟨moves, hledger⟩ := Ledger.of_live hw s before hlive
    exact hledger.fits

/-- The very first event of a read sends its address and stores a byte that was there before. -/
theorem stale_byte_at_first_event :
    let chain := [Message.read 0x48 [0, 0]]
    let o := (serve [⟨2⟩] (start chain)).run Script.respond {}
    Message.Valid chain ∧ StoresStale Script.respond {} chain [⟨2⟩] ∧
      traffic o.trace = [.paced 0x191, .bare 0x200, .pulled 0xee] ∧
      Message.buffers o.value.chain = [[0xee, 0]] ∧ o.value.unrequested = 0 := by
  refine ⟨by decide, ⟨[], ⟨2⟩, [], rfl, 0, _, rfl, rfl, by decide, by decide⟩, ?_⟩
  decide

end TwoWire.Transaction
