import TwoWire.Proofs.BenchSessions
/-!
# Dormancy between calls

Every call gives the bench back as it needs to find it: the clock gated, the line masked, the
controller idle with nothing received and no error latched, and both lines let go. This does not
depend on how the call ends, nor on what was attached or held between the calls.
-/
namespace TwoWire
namespace Bench

variable {b : Bench}

/-! ## Between calls -/

/-- The bench as it is between calls. -/
structure Dormant (b : Bench) : Prop where
  clockOn : b.clockOn = false
  unmasked : b.unmasked = false
  edge : b.edge.raised = false
  mode : b.mode = .idle
  master : b.master = false
  stalled : b.stalled = false
  received : b.received = none
  errors : b.errors = 0
  sclLow : b.sclLow = false
  sdaLow : b.sdaLow = false

theorem dormant_empty : Dormant {} := by constructor <;> rfl

namespace Dormant

theorem attach (h : Dormant b) (address : UInt8) (device : Device) :
    Dormant (b.attach address device) :=
  ⟨h.clockOn, h.unmasked, h.edge, h.mode, h.master, h.stalled, h.received, h.errors, h.sclLow,
    h.sdaLow⟩

theorem wedge (h : Dormant b) (address : UInt8) : Dormant (b.wedge address) :=
  ⟨h.clockOn, h.unmasked, h.edge, h.mode, h.master, h.stalled, h.received, h.errors, h.sclLow,
    h.sdaLow⟩

theorem delay (h : Dormant b) (nanoseconds : UInt32) : Dormant (b.delay nanoseconds) :=
  ⟨h.clockOn, h.unmasked, h.edge, h.mode, h.master, h.stalled, h.received, h.errors, h.sclLow,
    h.sdaLow⟩

theorem opened (h : Dormant b) (hpads : b.padsToBus = true) : Manned b.opened := by
  have hconsistent : Consistent b := by
    refine ⟨⟨?_, ?_⟩, ?_, ?_, ?_⟩
    · simp [h.mode]
    · simp [h.stalled]
    · simp [h.master, h.mode]
    · simp [h.received]
    · rw [h.errors]
      exact latches_zero
  exact ⟨hconsistent.undisturbed ⟨rfl, rfl, rfl, rfl, rfl, rfl⟩, rfl, rfl, hpads, h.sclLow,
    h.sdaLow⟩

end Dormant

theorem Left.closed {well : Bool} (h : Left b well) : Dormant b.closed where
  clockOn := rfl
  unmasked := rfl
  edge := rfl
  mode := h.mode
  master := by
    change b.master = false
    simp [h.master, h.mode]
  stalled := by
    change b.stalled = false
    rw [← Bool.not_eq_true]
    exact fun hs => h.stalls hs h.mode
  received := h.received_eq_none (by simp [h.mode])
  errors := h.errors
  sclLow := h.sclLow
  sdaLow := h.sdaLow

end Bench

namespace Master
open Program (ends_bind_eq)
open Bench (respond)

/-- Between calls the bench is dormant, and the controller has the pads if its master is
installed. -/
structure Keeps (m : Master) (b : Bench) : Prop where
  dormant : b.Dormant
  pads : m.installed = true → b.padsToBus = true

/-- What a call leaves that answered this: the bench in order, and a free bus if all went well. -/
structure Leaves {α : Type} (m : Master) (result : Except Error α) (b : Bench) : Prop
    extends Keeps m b where
  free : result.isOk = true → b.isActive = false

variable {m : Master} {b b' : Bench} {chain : List Message}

theorem Keeps.refused {α : Type} (h : m.Keeps b) (error : Error) :
    m.Leaves (.error error : Except Error α) b :=
  ⟨h, nofun⟩

theorem Leaves.verdict {requested : Nat} {result : Except Error Nat} (h : m.Leaves result b) :
    m.Leaves (Answer.verdict requested result) b := by
  refine ⟨h.toKeeps, fun hok => h.free ?_⟩
  cases result with
  | ok _ => rfl
  | error _ => exact hok

/-- A session leaves the bench in order if its body does. -/
theorem leaves_of_hold {α β : Type} (hbus : m.bus.config = Bench.config) (h : m.Keeps b)
    (hm : m.installed = true) {refused a : α} {body : Program α} (told : α → Except Error β)
    (hbody : ∀ {a b'}, b.opened.Manned → body.ends respond b.opened = (a, b') →
      b'.Left (told a).isOk)
    (hends : (Session.hold m.bus refused body).ends respond b = (a, b')) :
    m.Leaves (told a) b' := by
  generalize hinner : body.ends respond b.opened = inner
  obtain ⟨a₁, b₁⟩ := inner
  have hleft := hbody (h.dormant.opened (h.pads hm)) hinner
  rw [Bench.ends_hold hbus hinner] at hends
  obtain ⟨rfl, rfl⟩ := Prod.mk.inj hends
  exact ⟨⟨hleft.closed, fun _ => hleft.padsToBus⟩, hleft.free⟩

theorem leaves_transact (hbus : m.bus.config = Bench.config) (h : m.Keeps b) {answer : Answer Nat}
    (hends : (m.transact chain).ends respond b = (answer, b')) :
    m.Leaves answer.result b' := by
  unfold transact at hends
  split at hends
  case isFalse =>
    rw [reportNotInstalled, ends_bind_eq (Program.ends_error respond _ _ b)] at hends
    obtain ⟨rfl, rfl⟩ := Prod.mk.inj hends
    exact h.refused _
  rename_i hm
  split at hends
  case isFalse =>
    obtain ⟨rfl, rfl⟩ := Prod.mk.inj hends
    exact h.refused _
  rename_i hvalid
  apply leaves_of_hold hbus h hm Answer.result _ hends
  exact fun hmanned hinner => Bench.left_transact hbus hmanned hvalid.1 hinner

/-- Every attempt leaves the bench in order, and so does the pause before the next one. -/
theorem leaves_persist (hbus : m.bus.config = Bench.config) (h : m.Keeps b) {retries left : Nat}
    {answer : Answer Unit}
    (hends : (m.persist retries left chain).ends respond b = (answer, b')) :
    m.Leaves answer.result b' := by
  induction left generalizing chain b with
  | zero =>
    generalize hattempt : (m.transact chain).ends respond b = attempted
    obtain ⟨attempt, b₁⟩ := attempted
    rw [ends_persist_last hattempt _ (.inr rfl)] at hends
    obtain ⟨rfl, rfl⟩ := Prod.mk.inj hends
    exact (leaves_transact hbus h hattempt).verdict
  | succ left ih =>
    generalize hattempt : (m.transact chain).ends respond b = attempted
    obtain ⟨attempt, b₁⟩ := attempted
    have hleaves := leaves_transact hbus h hattempt
    by_cases hfinal : Answer.Final chain.length attempt.result
    · rw [ends_persist_last hattempt _ (.inl hfinal)] at hends
      obtain ⟨rfl, rfl⟩ := Prod.mk.inj hends
      exact hleaves.verdict
    · rw [ends_persist_again hattempt hfinal] at hends
      exact ih ⟨hleaves.dormant.delay _, hleaves.pads⟩ hends

theorem leaves_retrying (hbus : m.bus.config = Bench.config) (h : m.Keeps b) {retries : Nat}
    {answer : Answer Unit}
    (hends : (m.transactRetrying retries chain).ends respond b = (answer, b')) :
    m.Leaves answer.result b' := by
  unfold transactRetrying at hends
  split at hends
  · exact leaves_persist hbus h hends
  · rw [reportNotInstalled, ends_bind_eq (Program.ends_error respond _ _ b)] at hends
    obtain ⟨rfl, rfl⟩ := Prod.mk.inj hends
    exact h.refused _

/-- Operations are one attempt; without any, the bench is not touched. -/
theorem leaves_perform (hbus : m.bus.config = Bench.config) (h : m.Keeps b) {address : UInt8}
    {operations : List Payload} {answer : Answer Unit}
    (hends : (m.perform address operations).ends respond b = (answer, b')) :
    m.Keeps b' ∧ (operations ≠ [] → m.Leaves answer.result b') := by
  unfold perform at hends
  split at hends
  case isTrue hnone =>
    obtain ⟨rfl, rfl⟩ := Prod.mk.inj hends
    exact ⟨h, fun hsome => absurd (List.isEmpty_iff.mp hnone) hsome⟩
  split at hends
  case isTrue =>
    obtain ⟨rfl, rfl⟩ := Prod.mk.inj hends
    exact ⟨h, fun _ => h.refused _⟩
  generalize hattempt : (m.transact (operations.map (Message.mk address))).ends respond b =
    attempted at hends
  obtain ⟨attempt, b₁⟩ := attempted
  rw [ends_bind_eq hattempt] at hends
  obtain ⟨rfl, rfl⟩ := Prod.mk.inj hends
  have hleaves := leaves_transact hbus h hattempt
  exact ⟨hleaves.toKeeps, fun _ => hleaves.verdict⟩

theorem leaves_recover (hbus : m.bus.config = Bench.config) (h : m.Keeps b)
    {result : Except Error Unit} (hends : m.recover.ends respond b = (result, b')) :
    m.Leaves result b' := by
  unfold recover at hends
  split at hends
  case isTrue hm =>
    apply leaves_of_hold hbus h hm id _ hends
    exact fun hmanned hinner => Bench.left_clear hbus hmanned hinner
  case isFalse =>
    rw [reportNotInstalled, ends_bind_eq (Program.ends_error respond _ _ b)] at hends
    obtain ⟨rfl, rfl⟩ := Prod.mk.inj hends
    exact h.refused _

/-- The bench once its controller has the pads and the divider is programmed. -/
def programmed (b : Bench) (control : UInt32) : Bench :=
  ((((b.mask.routePads true).enableClock Bench.clock).2).writeRegister .clockControl
    control).disableClock Bench.clock

theorem programmed_eq (b : Bench) (control : UInt32) :
    ∃ tally, programmed b control =
      { b with
        clockOn := false
        unmasked := false
        edge := ⟨false⟩
        clockControl := control
        padsToBus := true
        tally := tally } := by
  refine ⟨(programmed b control).tally, ?_⟩
  simp [programmed, Bench.mask, Bench.routePads, Bench.enableClock, Bench.writeRegister,
    Bench.disableClock, Latch.take]

theorem keeps_programmed (h : b.Dormant) (control : UInt32) (m : Master) :
    m.Keeps (programmed b control) := by
  obtain ⟨tally, heq⟩ := programmed_eq b control
  rw [heq]
  exact ⟨⟨rfl, rfl, rfl, h.mode, h.master, h.stalled, h.received, h.errors, h.sclLow, h.sdaLow⟩,
    fun _ => rfl⟩

theorem Keeps.claimLine (h : m.Keeps b) (id : UInt32) : m.Keeps (b.claimLine id).2 := by
  unfold Bench.claimLine
  split
  case isFalse => exact h
  split
  case isTrue => exact h
  have hd := h.dormant
  exact ⟨⟨hd.clockOn, hd.unmasked, hd.edge, hd.mode, hd.master, hd.stalled, hd.received, hd.errors,
    hd.sclLow, hd.sdaLow⟩, h.pads⟩

/-- A master whose clock is granted programs the divider, and is installed if it also gets the line. -/
theorem ends_install (hm : m.installed = false) (hclock : m.bus.config.clock = Bench.clock)
    {claimed : Except ClaimError Unit}
    (hclaim : (programmed b m.bus.config.clockControl).claimLine m.bus.config.line = (claimed, b')) :
    m.install.ends respond b =
      (match claimed with
        | .ok () => (.ok (), { m with installed := true })
        | .error _ => (.error .noInterrupt, m), b') := by
  let control := m.bus.config.clockControl
  let enabled := ((b.mask.routePads true).enableClock Bench.clock).2
  have hmasked : (Program.maskLine m.bus.config.line).ends respond b = ((), b.mask) := rfl
  have hgranted : (Program.enableClock m.bus.config.clock).ends respond (b.mask.routePads true) =
      (true, enabled) := by
    rw [hclock]
    rfl
  have hset : (Controller.setClockControl control).ends respond enabled =
      ((), enabled.writeRegister .clockControl control) := rfl
  have hgated : (Program.disableClock m.bus.config.clock).ends respond
      (enabled.writeRegister .clockControl control) = ((), programmed b control) := by
    rw [hclock]
    rfl
  have hclaimed : (Program.claimLine m.bus.config.line).ends respond (programmed b control) =
      (claimed, b') := hclaim
  unfold install
  rw [if_neg (by rw [hm]; exact nofun)]
  dsimp only
  rw [ends_bind_eq hmasked, ends_bind_eq (Bench.ends_routePads _ _), ends_bind_eq hgranted,
    if_pos rfl, ends_bind_eq hset, ends_bind_eq (Program.ends_debug respond _ _ _),
    ends_bind_eq hgated, ends_bind_eq hclaimed]
  cases claimed <;> rfl

/-- Installing hands the pads to the controller, whether or not the line can be claimed. -/
theorem keeps_install (hbus : m.bus.config = Bench.config) (h : m.Keeps b)
    {result : Except Error Unit} {after : Master}
    (hends : m.install.ends respond b = ((result, after), b')) :
    after.Keeps b' ∧ after.bus = m.bus := by
  cases hm : m.installed with
  | true =>
    rw [install, if_pos hm, ends_bind_eq (Program.ends_error respond _ _ b)] at hends
    obtain ⟨heq, rfl⟩ := Prod.mk.inj hends
    obtain ⟨-, rfl⟩ := Prod.mk.inj heq
    exact ⟨h, rfl⟩
  | false =>
    have hkeeps (m' : Master) := (keeps_programmed h.dormant m.bus.config.clockControl m').claimLine
      m.bus.config.line
    generalize hclaim : (programmed b m.bus.config.clockControl).claimLine m.bus.config.line =
      claim at hkeeps
    obtain ⟨claimed, b₁⟩ := claim
    rw [ends_install hm (congrArg BusConfig.clock hbus) hclaim] at hends
    obtain ⟨heq, rfl⟩ := Prod.mk.inj hends
    cases claimed with
    | ok _ =>
      obtain ⟨-, rfl⟩ := Prod.mk.inj heq
      exact ⟨hkeeps _, rfl⟩
    | error _ =>
      obtain ⟨-, rfl⟩ := Prod.mk.inj heq
      exact ⟨hkeeps _, rfl⟩

/-- A master that is removed takes the pads from the controller. -/
theorem keeps_uninstall (hbus : m.bus.config = Bench.config) (h : m.Keeps b) {after : Master}
    (hends : m.uninstall.ends respond b = (after, b')) : after.Keeps b' ∧ after.bus = m.bus := by
  unfold uninstall at hends
  split at hends
  case isFalse =>
    obtain ⟨rfl, rfl⟩ := Prod.mk.inj hends
    exact ⟨h, rfl⟩
  let released := { b.mask.disableClock Bench.clock with claimed := false }
  have hmasked : (Program.maskLine m.bus.config.line).ends respond b = ((), b.mask) := rfl
  have hgated : (Program.disableClock m.bus.config.clock).ends respond b.mask =
      ((), b.mask.disableClock Bench.clock) := by
    rw [hbus]
    rfl
  have hreleased : (Program.releaseLine m.bus.config.line).ends respond
      (b.mask.disableClock Bench.clock) = ((), released) := rfl
  rw [ends_bind_eq hmasked, ends_bind_eq hgated, ends_bind_eq hreleased,
    ends_bind_eq (Bench.ends_routePads _ _)] at hends
  obtain ⟨rfl, rfl⟩ := Prod.mk.inj hends
  have hd := h.dormant
  exact ⟨⟨⟨rfl, rfl, rfl, rfl, rfl, rfl, rfl, hd.errors, hd.sclLow, hd.sdaLow⟩, nofun⟩, rfl⟩

end Master

/-! ## Any calls -/

namespace Call
open Program (ends_bind_eq)
open Bench (respond)

/-- The call gives a good answer only about a bus that it has used. -/
def UsesBus : Call → Prop
  | install => False
  | uninstall => False
  | perform _ operations => operations ≠ []
  | _ => True

variable {m : Master} {b b' : Bench}

/-- A call that hands the answer of a program on and keeps the master. -/
theorem leaves_of_answer {α : Type} {p : Program α} {told : α → Except Error Unit} {used : Prop}
    {result : Except Error Unit} {after : Master}
    (hp : ∀ {a b'}, p.ends respond b = (a, b') →
      m.Keeps b' ∧ (used → (told a).isOk = true → b'.isActive = false))
    (hends : (p >>= fun a => pure (told a, m)).ends respond b = ((result, after), b')) :
    after.Keeps b' ∧ after.bus = m.bus ∧ (used → result.isOk = true → b'.isActive = false) := by
  generalize hcall : p.ends respond b = called
  obtain ⟨a, b₁⟩ := called
  obtain ⟨hkeeps, hfree⟩ := hp hcall
  rw [ends_bind_eq hcall] at hends
  obtain ⟨heq, rfl⟩ := Prod.mk.inj hends
  obtain ⟨rfl, rfl⟩ := Prod.mk.inj heq
  exact ⟨hkeeps, rfl, hfree⟩

/-- One call leaves the bench in order, and the bus free if it used it and all went well. -/
theorem keeps_submit (hbus : m.bus.config = Bench.config) (h : m.Keeps b) (call : Call)
    {result : Except Error Unit} {after : Master}
    (hends : (call.submit m).ends respond b = ((result, after), b')) :
    after.Keeps b' ∧ after.bus = m.bus ∧
      (call.UsesBus → result.isOk = true → b'.isActive = false) := by
  cases call with
  | install =>
    obtain ⟨hkeeps, hsame⟩ := Master.keeps_install hbus h hends
    exact ⟨hkeeps, hsame, nofun⟩
  | uninstall =>
    generalize hcall : m.uninstall.ends respond b = called
    obtain ⟨removed, b₁⟩ := called
    obtain ⟨hkeeps, hsame⟩ := Master.keeps_uninstall hbus h hcall
    rw [submit, ends_bind_eq hcall] at hends
    obtain ⟨heq, rfl⟩ := Prod.mk.inj hends
    obtain ⟨-, rfl⟩ := Prod.mk.inj heq
    exact ⟨hkeeps, hsame, nofun⟩
  | transact chain =>
    refine leaves_of_answer (fun {answer _} hcall => ?_) hends
    have hleaves := Master.leaves_transact hbus h hcall
    refine ⟨hleaves.toKeeps, fun _ hok => hleaves.free ?_⟩
    cases hresult : answer.result with
    | ok _ => rfl
    | error _ =>
      rw [hresult] at hok
      cases hok
  | write address bytes =>
    apply leaves_of_answer _ hends
    intro answer b₁ hcall
    have hleaves := Master.leaves_retrying hbus h hcall
    exact ⟨hleaves.toKeeps, fun _ => hleaves.free⟩
  | read address register buffer =>
    apply leaves_of_answer _ hends
    intro answer b₁ hcall
    have hleaves := Master.leaves_retrying hbus h hcall
    exact ⟨hleaves.toKeeps, fun _ => hleaves.free⟩
  | writeRead address bytes buffer =>
    apply leaves_of_answer _ hends
    intro answer b₁ hcall
    have hleaves := Master.leaves_retrying hbus h hcall
    exact ⟨hleaves.toKeeps, fun _ => hleaves.free⟩
  | perform address operations =>
    apply leaves_of_answer _ hends
    intro answer b₁ hcall
    obtain ⟨hkeeps, hleaves⟩ := Master.leaves_perform hbus h hcall
    exact ⟨hkeeps, fun hsome => (hleaves hsome).free⟩
  | recover =>
    apply leaves_of_answer _ hends
    intro answer b₁ hcall
    have hleaves := Master.leaves_recover hbus h hcall
    exact ⟨hleaves.toKeeps, fun _ => hleaves.free⟩

end Call

/-- What can happen to a master and its bench: a call, a device attached, a line held by a slave. -/
inductive Happening
  | call (call : Call)
  | attach (address : UInt8) (device : Bench.Device)
  | wedge (address : UInt8)

namespace Happening

/-- A master and its bench after something has happened. -/
def play : Master × Bench → Happening → Master × Bench
  | (m, b), .call submitted =>
    let o := (submitted.submit m).run Bench.respond b
    (o.value.2, o.state)
  | (m, b), .attach address device => (m, b.attach address device)
  | (m, b), .wedge address => (m, b.wedge address)

theorem keeps_play {m : Master} {b : Bench} (hbus : m.bus.config = Bench.config) (h : m.Keeps b)
    (happening : Happening) :
    let after := play (m, b) happening
    after.1.Keeps after.2 ∧ after.1.bus.config = Bench.config := by
  cases happening with
  | call submitted =>
    obtain ⟨hkeeps, hsame, -⟩ := Call.keeps_submit hbus h submitted rfl
    exact ⟨hkeeps, (congrArg Bus.config hsame).trans hbus⟩
  | attach address device => exact ⟨⟨h.dormant.attach address device, h.pads⟩, hbus⟩
  | wedge address => exact ⟨⟨h.dormant.wedge address, h.pads⟩, hbus⟩

/-- Whatever has happened, the bench is in order. -/
theorem keeps_foldl {m : Master} {b : Bench} (hbus : m.bus.config = Bench.config) (h : m.Keeps b)
    (happenings : List Happening) :
    let after := happenings.foldl play (m, b)
    after.1.Keeps after.2 ∧ after.1.bus.config = Bench.config := by
  induction happenings generalizing m b with
  | nil => exact ⟨h, hbus⟩
  | cons happening rest ih =>
    obtain ⟨hkeeps, hconfig⟩ := keeps_play hbus h happening
    exact ih hconfig hkeeps

end Happening

/-- Whatever was called before, on whatever devices and with whatever lines held, a call leaves the
bench dormant: the clock gated and the line masked without an event, the controller idle with nothing
received and no error to report, and both lines let go. The controller of an installed master has its
pads. If the call used the bus and went well, the bus is free. -/
theorem Call.leaves_dormant (logger : Logger) (happenings : List Happening) (call : Call) :
    let before := happenings.foldl Happening.play ({ bus := ⟨Bench.config, logger⟩ }, {})
    let o := (call.submit before.1).run Bench.respond before.2
    o.state.Dormant ∧ (o.value.2.installed = true → o.state.padsToBus = true) ∧
      (call.UsesBus → o.value.1 = .ok () → o.state.isActive = false) := by
  intro before o
  have hfresh : Master.Keeps { bus := ⟨Bench.config, logger⟩ } {} := ⟨Bench.dormant_empty, nofun⟩
  obtain ⟨hbefore, hconfig⟩ := Happening.keeps_foldl rfl hfresh happenings
  obtain ⟨hkeeps, -, hfree⟩ :=
    keeps_submit hconfig hbefore call (show _ = ((o.value.1, o.value.2), o.state) from rfl)
  refine ⟨hkeeps.dormant, hkeeps.pads, fun hused hok => hfree hused ?_⟩
  rw [hok]
  rfl

end TwoWire
