import TwoWire.Proofs.Execution
import TwoWire.Proofs.Scopes
import TwoWire.Session
/-!
# What runs inside a session

Each program of a session makes only accesses that may stand in a session's body, and the clearing of
the bus hands the pads back on every path. So the whole of a held session is one stretch of a
master's life, whatever the board answers.
-/
namespace TwoWire

namespace Program

variable {α β : Type} {trace : List Event} {a : α}

/-- Every access of the program is of the kind, whatever the answers are. -/
def Confined (kind : Access → Bool) : Program α → Prop
  | .done _ => True
  | .access request next => kind request ∧ ∀ reply, (next reply).Confined kind
  | .note _ next => next.Confined kind

variable {kind : Access → Bool} {p : Program α} {f : α → Program β}

theorem confined_notes (entries : List LogEntry) : (notes entries).Confined kind := by
  induction entries with
  | nil => trivial
  | cons entry rest ih => exact ih

theorem Confined.bind (h : p.Confined kind) (hf : ∀ a, p.Returns a → (f a).Confined kind) :
    (p >>= f).Confined kind := by
  induction p with
  | done a => exact hf a (.done a)
  | access request next ih =>
    refine ⟨h.1, fun reply => ih reply (h.2 reply) fun a ha => ?_⟩
    exact hf a (.access reply ha)
  | note entry next ih => exact ih h fun a ha => hf a (.note ha)

theorem Confined.mono {wider : Access → Bool} (hkind : ∀ {a : Access}, kind a → wider a)
    (h : p.Confined kind) : p.Confined wider := by
  induction p with
  | done a => trivial
  | access request next ih => exact ⟨hkind h.1, fun reply => ih reply (h.2 reply)⟩
  | note entry next ih => exact ih h

theorem Confined.of_executes (h : p.Confined kind) (he : p.Executes trace a) :
    ∀ e ∈ trace, kind e.access := by
  induction he with
  | done _ => exact nofun
  | access reply _ ih => exact List.forall_mem_cons.mpr ⟨h.1, ih (h.2 reply)⟩
  | note _ ih => exact ih h

/-- Every execution of the program can stand inside a session. -/
def InSession (p : Program α) : Prop := ∀ trace a, p.Executes trace a → Body trace

namespace InSession

theorem of_confined (h : p.Confined Access.isTransfer) : p.InSession := by
  intro trace a he
  exact .of_plain ((h.mono Access.isPlain_of_isTransfer).of_executes he)

theorem pure (a : α) : (pure a : Program α).InSession := of_confined trivial

theorem notes (entries : List LogEntry) : (notes entries).InSession :=
  of_confined (confined_notes entries)

theorem bind (h : p.InSession) (hf : ∀ a, (f a).InSession) : (p >>= f).InSession := by
  intro trace b he
  obtain ⟨first, a, second, rfl, hfirst, hsecond⟩ := executes_bind.mp he
  exact (h first a hfirst).append (hf a second b hsecond)

end InSession
end Program

/-! ## What a session does -/

namespace Controller
open Program

theorem confined_sample : sample.Confined Access.isTransfer := ⟨rfl, fun _ => trivial⟩

theorem exchanges_pushPaced (word : UInt32) : (pushPaced word).Confined Access.isExchange := by
  refine .bind ⟨rfl, fun _ => trivial⟩ fun pads _ => ?_
  split
  · exact ⟨rfl, fun _ => trivial⟩
  · exact ⟨rfl, fun _ => ⟨rfl, fun _ => trivial⟩⟩

theorem exchanges_stopIf (due : Bool) : (stopIf due).Confined Access.isExchange := by
  cases due with
  | true => exact ⟨rfl, fun _ => trivial⟩
  | false => trivial

end Controller

namespace Transaction
open Program

theorem exchanges_feedOn (t : Transaction) (status : Status) :
    (t.feedOn status).Confined Access.isExchange := by
  unfold feedOn feed
  split
  · trivial
  split
  · trivial
  · exact (Controller.exchanges_pushPaced _).bind fun _ _ => trivial

theorem exchanges_drainOn (t : Transaction) (status : Status) :
    (t.drainOn status).Confined Access.isExchange := by
  unfold drainOn drain
  split
  case isFalse => trivial
  split
  · exact (Controller.exchanges_stopIf _).bind fun _ _ => ⟨rfl, fun _ => trivial⟩
  · exact (Controller.exchanges_stopIf _).bind fun _ _ => ⟨rfl, fun _ => trivial⟩

theorem exchanges_onEvent (t : Transaction) (status : Status) :
    (t.onEvent status).Confined Access.isExchange := by
  unfold onEvent
  split
  · trivial
  split
  · trivial
  · exact (t.exchanges_feedOn status).bind fun fed _ =>
      (fed.2.exchanges_drainOn status).bind fun _ _ => trivial

theorem confined_onEvent (t : Transaction) (status : Status) :
    (t.onEvent status).Confined Access.isTransfer :=
  (t.exchanges_onEvent status).mono Access.isTransfer_of_isExchange

end Transaction

namespace BusClear
open Program

variable {c next : BusClear}

theorem confined_unblock (status : Status) : (unblock status).Confined Access.isClearing := by
  unfold unblock
  split
  · exact ⟨rfl, fun _ => ⟨rfl, fun _ => trivial⟩⟩
  split
  · exact ⟨rfl, fun _ => trivial⟩
  · trivial

theorem confined_stretch (c : BusClear) (nanoseconds : UInt32) :
    (c.stretch nanoseconds).Confined Access.isClearing := by
  refine ⟨rfl, fun high => ?_⟩
  cases high with
  | true => trivial
  | false => exact ⟨rfl, fun _ => trivial⟩

theorem confined_pulse (c : BusClear) (issued : Nat) :
    (c.pulse issued).Confined Access.isClearing := by
  refine ⟨rfl, fun _ => ⟨rfl, fun _ => ⟨rfl, fun _ => ⟨rfl, fun _ => ⟨rfl, fun _ => ⟨rfl, fun _ => ?_⟩⟩⟩⟩⟩⟩
  refine (c.confined_stretch 20).bind fun _ _ => (c.confined_stretch 10000).bind fun _ _ => ?_
  exact ⟨rfl, fun _ => ⟨rfl, fun _ => ⟨rfl, fun _ => trivial⟩⟩⟩

theorem confined_pulseClock (c : BusClear) (issued : Nat) :
    (c.pulseClock issued).Confined Access.isClearing := by
  unfold pulseClock
  split
  · trivial
  · refine ⟨rfl, fun released => ?_⟩
    change Confined _ (ite _ _ _)
    split
    · trivial
    · exact c.confined_pulse issued

/-- The procedure has taken the pads from the controller. -/
def HasPads (c : BusClear) : Prop := (∃ issued, c.state = .pulseClock issued) ∨ c.state = .restorePads

theorem hasPads_pulseClock {issued : Nat} (h : (c.pulseClock issued).Returns next) :
    next.HasPads := by
  unfold pulseClock at h
  split at h
  · cases returns_pure.mp h
    exact .inr rfl
  obtain ⟨released, -, h⟩ := returns_bind.mp h
  split at h
  · cases returns_pure.mp h
    exact .inr rfl
  · simp only [pulse, returns_bind, returns_pure] at h
    obtain ⟨_, _, _, _, _, _, _, _, _, _, _, _, _, _, _, _, _, _, _, _, _, _, rfl⟩ := h
    exact .inl ⟨_, rfl⟩

theorem HasPads.outcome? (h : c.HasPads) : c.outcome? = none := by
  unfold BusClear.outcome?
  rcases h with ⟨issued, hs⟩ | hs <;> rw [hs]

/-- Once it has the pads, the procedure works on them and then hands them back. -/
theorem detour_of_executes {trace : List Event} {result : ClearOutcome × BusClear}
    (hpads : c.HasPads) (h : c.run.Executes trace result) :
    ∃ pins rest, trace = pins ++ [⟨.routePads true, ()⟩] ++ rest ∧
      (∀ e ∈ pins, e.access.isManual) ∧ Body rest := by
  induction c using BusClear.run.induct generalizing trace with
  | case1 c ih =>
    rw [run_eq] at h
    obtain ⟨first, next, second, rfl, hstep, hrest⟩ := executes_bind.mp h
    have hreached := returns_of_executes hstep
    unfold step at hstep
    rcases hpads with ⟨issued, hs⟩ | hs
    · simp only [hs] at hstep
      have hnext := hasPads_pulseClock (returns_of_executes hstep)
      rw [hnext.outcome?] at hrest
      obtain ⟨pins, rest, rfl, hpins, hbody⟩ := ih next hreached hnext.outcome? hnext hrest
      refine ⟨first ++ pins, rest, by simp only [List.append_assoc], ?_, hbody⟩
      have hpulsed := (c.confined_pulseClock issued).mono Access.isManual_of_isClearing
      exact List.forall_mem_append.mpr ⟨hpulsed.of_executes hstep, hpins⟩
    · simp only [hs, restore, Controller.sample, routePads, delay, readRegister, executes_bind,
        executes_access, executes_pure] at hstep
      obtain ⟨_, _, _, rfl, ⟨_, _, rfl, rfl, _⟩, _, _, _, rfl, ⟨_, _, rfl, rfl, _⟩, _, _, _, rfl,
        ⟨_, _, _, rfl, ⟨_, _, rfl, rfl, rfl⟩, rfl, rfl⟩, rfl, rfl⟩ := hstep
      obtain ⟨rfl, -⟩ := executes_pure.mp hrest
      refine ⟨[], _, rfl, List.forall_mem_nil _, ?_⟩
      exact .plain rfl (.plain rfl .nil)

theorem inSession_run (scl sda : UInt32) : (start scl sda).run.InSession := by
  intro trace result h
  -- the first step makes no access, the second one looks at the bus
  rw [run_eq] at h
  change ((({ start scl sda with state := .probeStatus } : BusClear).run).Executes trace result) at h
  rw [run_eq] at h
  obtain ⟨_, next, second, rfl, hstep, hrest⟩ := executes_bind.mp h
  change (probe _).Executes _ _ at hstep
  obtain ⟨_, status, _, rfl, hsample, hstep⟩ := executes_bind.mp hstep
  have hlook : Body _ := InSession.of_confined Controller.confined_sample _ status hsample
  split at hstep
  · obtain ⟨_, _, _, rfl, hroute, hstep⟩ := executes_bind.mp hstep
    obtain ⟨unblocked, _, _, rfl, hunblock, hstep⟩ := executes_bind.mp hstep
    obtain ⟨rfl, rfl⟩ := executes_pure.mp hstep
    obtain ⟨_, _, rfl, hrouted⟩ := executes_access.mp hroute
    obtain ⟨rfl, -⟩ := executes_pure.mp hrouted
    obtain ⟨pins, rest, rfl, hpins, hbody⟩ := detour_of_executes (.inl ⟨0, rfl⟩) hrest
    have hunblocked := (confined_unblock status).mono Access.isManual_of_isClearing
    have hmanual := List.forall_mem_append.mpr ⟨hunblocked.of_executes hunblock, hpins⟩
    have := hlook.append (.detour hmanual hbody)
    simpa using this
  · obtain ⟨rfl, rfl⟩ := executes_pure.mp hstep
    obtain ⟨rfl, -⟩ := executes_pure.mp hrest
    simpa using hlook

end BusClear

namespace Session
open Program

variable (bus : Bus)

theorem confined_backoff (idle : Nat) : (backoff idle).Confined Access.isTransfer := by
  unfold backoff
  split
  · exact ⟨rfl, fun _ => trivial⟩
  · trivial

theorem confined_awaitIdle (tries : Nat) : (awaitIdle bus tries).Confined Access.isTransfer := by
  induction tries with
  | zero => exact (confined_notes _).bind fun _ _ => trivial
  | succ tries ih =>
    refine ⟨rfl, fun _ => ⟨rfl, fun word => ?_⟩⟩
    change Confined _ (ite _ _ _)
    split
    · exact (confined_backoff _).bind fun _ _ => ih
    · refine .bind ?_ fun _ _ => trivial
      unfold reportWait
      split
      · exact confined_notes _
      · trivial

theorem confined_poll (t : Transaction) : (poll bus t).Confined Access.isTransfer := by
  refine ⟨rfl, fun _ => ⟨rfl, fun word => ?_⟩⟩
  change Confined _ (ite _ _ _)
  split
  · exact (t.confined_onEvent _).bind fun _ _ => trivial
  · trivial

theorem confined_settle (idle : Nat) (t : Transaction) :
    (settle bus idle t).Confined Access.isTransfer := by
  induction idle, t using Session.settle.induct bus with
  | case1 idle t early ihStill ihMoved =>
    rw [settle_eq, if_pos early]
    refine (confined_poll bus t).bind fun seen reached => ?_
    split
    · trivial
    split
    · rename_i hsame
      exact (confined_backoff idle).bind fun _ _ => ihStill seen reached hsame
    · rename_i hother
      exact ihMoved seen reached hother
  | case2 idle t late =>
    rw [settle_eq, if_neg late]
    exact (confined_notes _).bind fun _ _ => trivial

theorem inSession_clear : (clear bus).InSession := by
  refine (BusClear.inSession_run _ _).bind fun cleared => ?_
  split
  · exact .pure _
  · exact (InSession.notes _).bind fun _ => .pure _
  · exact .of_confined ⟨rfl, fun _ => (confined_notes _).bind fun _ _ => trivial⟩

theorem inSession_conclude (t : Transaction) : (conclude bus t).InSession := by
  unfold conclude
  split
  · exact (InSession.notes _).bind fun _ => (inSession_clear bus).bind fun _ => .pure _
  · refine InSession.bind ?_ fun _ => .pure _
    unfold reportIncomplete
    split
    · exact .notes _
    · exact .pure _

theorem inSession_abandon (t : Transaction) : (abandon bus t).InSession := by
  refine (InSession.notes _).bind fun _ => (inSession_clear bus).bind fun cleared => ?_
  cases cleared with
  | ok _ => exact inSession_conclude bus _
  | error _ => exact .pure _

theorem inSession_carry (chain : List Message) : (carry bus chain).InSession := by
  refine (InSession.of_confined Controller.confined_sample).bind fun status => ?_
  refine (InSession.of_confined (Transaction.confined_onEvent _ status)).bind fun primed => ?_
  refine (InSession.of_confined (confined_settle bus 0 primed)).bind fun watched => ?_
  refine InSession.bind ?_ fun _ => ?_
  · unfold reportUnrequested
    split
    · exact .notes _
    · exact .pure _
  · split
    · exact inSession_conclude bus _
    · exact inSession_abandon bus _

theorem inSession_transact (chain : List Message) : (transact bus chain).InSession := by
  refine (InSession.of_confined (confined_awaitIdle bus pollLimit)).bind fun idle => ?_
  split
  · exact inSession_carry bus chain
  · refine (inSession_clear bus).bind fun cleared => ?_
    cases cleared with
    | ok _ => exact inSession_carry bus chain
    | error _ => exact .pure _

/-- A session that opens is closed again, whatever stands between; one that does not open leaves it
at the refusal. -/
theorem stretch_of_hold {α : Type} {bus : Bus} {refused a : α} {body : Program α}
    {trace : List Event} (hbody : body.InSession)
    (h : (hold bus refused body).Executes trace a) :
    Stretch bus.config true trace true ∧ (a = refused ∨ body.Returns a) := by
  obtain ⟨_, granted, _, rfl, hopen, hrest⟩ := executes_bind.mp h
  obtain ⟨_, _, rfl, hopened⟩ := executes_access.mp hopen
  obtain ⟨rfl, rfl⟩ := executes_pure.mp hopened
  cases granted with
  | false =>
    obtain ⟨rfl, rfl⟩ := executes_pure.mp hrest
    exact ⟨.refused, .inl rfl⟩
  | true =>
    simp only [if_true, unmaskLine, maskLine, disableClock, executes_bind, executes_access,
      executes_pure] at hrest
    obtain ⟨_, _, _, rfl, ⟨_, _, rfl, rfl, _⟩, inner, result, _, rfl, hinner, _, _, _, rfl,
      ⟨_, _, rfl, rfl, _⟩, _, _, _, rfl, ⟨_, _, rfl, rfl, _⟩, rfl, rfl⟩ := hrest
    refine ⟨?_, .inr (returns_of_executes hinner)⟩
    have : Stretch bus.config true _ true := .session (hbody inner a hinner)
    simpa using this

end Session
end TwoWire
