import TwoWire.Master
import TwoWire.Proofs.Execution
/-!
# Observed transactions

The wait for a transaction comes to a single value, which does not tell what its polls saw. Here
each part of a session is made to hand out a record besides its result: what every poll found, and
whether the bus could be freed after a wait that was given up. Leaving the record out gives the
session as it was, so what the record says is said of the session itself.
-/
namespace TwoWire

namespace Session
open Program

/-- What a poll found while it waited for a transaction. -/
structure Sighting where
  /-- An event was pending. -/
  pending : Bool
  status : Status
  /-- The poll moved a byte. -/
  moved : Bool
  /-- The bus was found at rest. -/
  quiet : Bool
  deriving DecidableEq

/-- What a transaction went through: the sample at which it was begun, the polls of the wait for
it, what the wait came to, and whether the bus could be freed if the wait was given up. -/
structure Record where
  first : Status
  sightings : List Sighting
  watched : Watched
  freed : Bool

namespace Observed

variable {bus : Bus}

/-- A poll, and what it found. -/
def poll (bus : Bus) (t : Transaction) : Program (Watched × Sighting) := do
  let pending ← takePending bus.config.line
  let status ← Controller.sample
  if pending || status.fault?.isSome then do
    let next ← t.onEvent status
    let quiet := !status.isBusy && next.phase.isTerminal
    pure (⟨quiet, next⟩, ⟨pending, status, next.moved != t.moved, quiet⟩)
  else pure (⟨!status.isBusy, t⟩, ⟨pending, status, false, !status.isBusy⟩)

theorem fst_poll (bus : Bus) (t : Transaction) :
    Prod.fst <$> poll bus t = Session.poll bus t := by
  unfold poll Session.poll
  simp only [map_bind]
  congr 1
  funext pending
  congr 1
  funext status
  split
  · simp only [map_bind, map_pure]
  · simp only [map_pure]

theorem returns_poll {t : Transaction} {seen : Watched × Sighting}
    (h : (poll bus t).Returns seen) : (Session.poll bus t).Returns seen.1 := by
  rw [← fst_poll, returns_map]
  exact ⟨seen, h, rfl⟩

/-- A wait, and what its polls found; `past` holds what the polls before found, the latest first. -/
def settle (bus : Bus) (idle : Nat) (t : Transaction) (past : List Sighting) :
    Program (Watched × List Sighting) :=
  if idle < pollLimit then
    (poll bus t).bindOn fun seen reached =>
      have := balance_poll (returns_poll reached)
      let sightings := seen.2 :: past
      if seen.1.quiet then pure (seen.1, sightings.reverse)
      else if seen.1.transaction.moved = t.moved then do
        backoff idle
        settle bus (idle + 1) seen.1.transaction sightings
      else settle bus 0 seen.1.transaction sightings
  else do
    reportGivenUp bus
    pure (⟨false, t⟩, past.reverse)
termination_by pollLimit * (t.outstanding + 1) - idle
decreasing_by
  all_goals
    simp only [pollLimit] at *
    omega

theorem settle_eq (bus : Bus) (idle : Nat) (t : Transaction) (past : List Sighting) :
    settle bus idle t past =
      if idle < pollLimit then
        poll bus t >>= fun seen =>
          if seen.1.quiet then pure (seen.1, (seen.2 :: past).reverse)
          else if seen.1.transaction.moved = t.moved then
            backoff idle >>= fun _ => settle bus (idle + 1) seen.1.transaction (seen.2 :: past)
          else settle bus 0 seen.1.transaction (seen.2 :: past)
      else
        reportGivenUp bus >>= fun _ => pure (⟨false, t⟩, past.reverse) := by
  rw [settle]
  split
  · exact bindOn_eq_bind _ _
  · rfl

/-- A wait with its polls, as it can come about. -/
inductive Waits (bus : Bus) : Nat → Transaction → List Sighting → Watched → Prop
  | ended {idle : Nat} {t : Transaction} {seen : Watched} {sighting : Sighting}
      (early : idle < pollLimit) (reached : (poll bus t).Returns (seen, sighting))
      (quiet : seen.quiet = true) : Waits bus idle t [sighting] seen
  | still {idle : Nat} {t : Transaction} {seen last : Watched} {sighting : Sighting}
      {sightings : List Sighting} (early : idle < pollLimit)
      (reached : (poll bus t).Returns (seen, sighting)) (busy : seen.quiet = false)
      (same : seen.transaction.moved = t.moved)
      (rest : Waits bus (idle + 1) seen.transaction sightings last) :
      Waits bus idle t (sighting :: sightings) last
  | moved {idle : Nat} {t : Transaction} {seen last : Watched} {sighting : Sighting}
      {sightings : List Sighting} (early : idle < pollLimit)
      (reached : (poll bus t).Returns (seen, sighting)) (busy : seen.quiet = false)
      (other : seen.transaction.moved ≠ t.moved)
      (rest : Waits bus 0 seen.transaction sightings last) :
      Waits bus idle t (sighting :: sightings) last
  | givenUp {idle : Nat} {t : Transaction} (late : pollLimit ≤ idle) :
      Waits bus idle t [] ⟨false, t⟩

/-- Whatever a wait returns has come about in this way. -/
theorem waits_of_returns {idle : Nat} {t : Transaction} {past all : List Sighting}
    {watched : Watched} (h : (settle bus idle t past).Returns (watched, all)) :
    ∃ sightings, all = past.reverse ++ sightings ∧ Waits bus idle t sightings watched := by
  induction idle, t using Session.settle.induct bus generalizing past with
  | case1 idle t early ihStill ihMoved =>
    rw [settle_eq, if_pos early, returns_bind] at h
    obtain ⟨⟨seen, sighting⟩, reached, h⟩ := h
    have hpoll := returns_poll reached
    split at h
    case isTrue hquiet =>
      cases returns_pure.mp h
      exact ⟨[sighting], List.reverse_cons, .ended early reached hquiet⟩
    rename_i hbusy
    rw [Bool.not_eq_true] at hbusy
    split at h
    case isTrue hsame =>
      obtain ⟨_, -, h⟩ := returns_bind.mp h
      obtain ⟨rest, hall, hwaits⟩ := ihStill seen hpoll hsame h
      refine ⟨sighting :: rest, ?_, .still early reached hbusy hsame hwaits⟩
      rw [hall, List.reverse_cons, List.append_assoc, List.singleton_append]
    case isFalse hother =>
      obtain ⟨rest, hall, hwaits⟩ := ihMoved seen hpoll hother h
      refine ⟨sighting :: rest, ?_, .moved early reached hbusy hother hwaits⟩
      rw [hall, List.reverse_cons, List.append_assoc, List.singleton_append]
  | case2 idle t late =>
    rw [settle_eq, if_neg late, returns_bind] at h
    obtain ⟨_, _, h⟩ := h
    cases returns_pure.mp h
    exact ⟨[], (List.append_nil _).symm, .givenUp (Nat.le_of_not_lt late)⟩

theorem fst_settle (bus : Bus) (idle : Nat) (t : Transaction) (past : List Sighting) :
    Prod.fst <$> settle bus idle t past = Session.settle bus idle t := by
  induction idle, t, past using settle.induct bus with
  | case1 idle t past early ihStill ihMoved =>
    rw [settle_eq, Session.settle_eq, if_pos early, if_pos early, ← fst_poll, map_bind,
      bind_map_left]
    apply bind_congr_of_returns
    rintro ⟨seen, sighting⟩ reached
    split
    case isTrue => rfl
    split
    case isTrue hsame =>
      rw [← ihStill (seen, sighting) reached hsame, map_bind]
    case isFalse hother =>
      rw [← ihMoved (seen, sighting) reached hother]
  | case2 idle t past late =>
    rw [settle_eq, Session.settle_eq, if_neg late, if_neg late]
    simp only [map_bind, map_pure]

/-! ## Whole transactions -/

/-- The answer after a wait that was given up, and whether the bus was freed. -/
def abandon (bus : Bus) (t : Transaction) : Program (Answer Nat × Bool) := do
  bus.logger.debug ["still busy after xfer completion"]
  let cleared ← clear bus
  match cleared with
  | .ok () => do
    let answer ← conclude bus t.giveUp
    pure (answer, true)
  | .error _ => pure (⟨.error .busBusy, t.chain⟩, false)

theorem fst_abandon (bus : Bus) (t : Transaction) :
    Prod.fst <$> abandon bus t = Session.abandon bus t := by
  unfold abandon Session.abandon
  simp only [map_bind]
  congr 1
  funext _
  congr 1
  funext cleared
  cases cleared with
  | ok _ => simp only [map_bind, map_pure, bind_pure]
  | error _ => simp only [map_pure]

/-- A chain on an idle bus, and the record of its transaction. -/
def carry (bus : Bus) (chain : List Message) : Program (Answer Nat × Record) := do
  let status ← Controller.sample
  let primed ← (Transaction.start chain).onEvent status
  let (watched, sightings) ← settle bus 0 primed []
  reportUnrequested bus watched.transaction
  if watched.quiet then do
    let answer ← conclude bus watched.transaction
    pure (answer, ⟨status, sightings, watched, false⟩)
  else do
    let (answer, freed) ← abandon bus watched.transaction
    pure (answer, ⟨status, sightings, watched, freed⟩)

theorem fst_carry (bus : Bus) (chain : List Message) :
    Prod.fst <$> carry bus chain = Session.carry bus chain := by
  unfold carry Session.carry
  simp only [← fst_settle bus 0 _ [], ← fst_abandon, map_bind, bind_map_left]
  congr 1
  funext status
  congr 1
  funext primed
  congr 1
  funext seen
  congr 1
  funext _
  split
  · simp only [map_bind, map_pure, bind_pure]
  · simp only [map_eq_pure_bind, bind_assoc, pure_bind]

/-- A chain as one transaction, and its record; there is none if the bus stayed busy beforehand and
could not be cleared, for then no transaction was begun. -/
def transact (bus : Bus) (chain : List Message) : Program (Answer Nat × Option Record) := do
  let idle ← awaitIdle bus pollLimit
  if idle then Prod.map id some <$> carry bus chain
  else do
    let cleared ← clear bus
    match cleared with
    | .ok () => Prod.map id some <$> carry bus chain
    | .error error => pure (⟨.error error, chain⟩, none)

theorem fst_transact (bus : Bus) (chain : List Message) :
    Prod.fst <$> transact bus chain = Session.transact bus chain := by
  have hcarry : Prod.fst <$> (Prod.map id some <$> carry bus chain : Program _) =
      Session.carry bus chain := by
    rw [← fst_carry, Functor.map_map]
    rfl
  unfold transact Session.transact
  simp only [map_bind]
  congr 1
  funext idle
  split
  · exact hcarry
  · simp only [map_bind]
    congr 1
    funext cleared
    cases cleared with
    | ok _ => exact hcarry
    | error _ => simp only [map_pure]

end Observed
end Session

namespace Master
open Program

/-- A call, and the record of its transaction if one was begun. -/
def observe (m : Master) (chain : List Message) : Program (Answer Nat × Option Session.Record) :=
  if m.installed then
    if Message.Valid chain then
      Session.hold m.bus (⟨.error .noClock, chain⟩, none) (Session.Observed.transact m.bus chain)
    else pure (⟨.error .invalidChain, chain⟩, none)
  else do
    m.reportNotInstalled
    pure (⟨.error .notReady, chain⟩, none)

theorem map_hold {α β : Type} (bus : Bus) (refused : α) (body : Program α) (f : α → β) :
    f <$> Session.hold bus refused body = Session.hold bus (f refused) (f <$> body) := by
  unfold Session.hold
  simp only [map_bind]
  congr 1
  funext granted
  split
  · simp only [map_bind, map_pure, bind_map_left]
  · simp only [map_pure]

/-- Observing a call changes nothing in it. -/
theorem fst_observe (m : Master) (chain : List Message) :
    Prod.fst <$> m.observe chain = m.transact chain := by
  unfold observe transact
  split
  case isFalse => simp only [map_bind, map_pure]
  split
  case isFalse => simp only [map_pure]
  rw [map_hold, Session.Observed.fst_transact]

theorem run_transact {σ : Type} (hw : Hardware σ) (s : σ) (m : Master) (chain : List Message) :
    let o := (m.observe chain).run hw s
    (m.transact chain).run hw s = ⟨o.value.1, o.state, o.trace, o.log⟩ := by
  rw [← fst_observe, run_map]

end Master
end TwoWire
