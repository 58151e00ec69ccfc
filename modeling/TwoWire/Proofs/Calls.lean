import TwoWire.Proofs.Attempts
import TwoWire.Proofs.InSession
import TwoWire.Proofs.Reports
/-!
# Calls to a master

Whatever is called, in whatever order and on whatever board, the trace is the life of a master: every
access stands in its scope. A call that is turned away makes no access at all.
-/
namespace TwoWire
open Program

/-! ## What an attempt hands back -/

namespace Message

def addresses (chain : List Message) : List UInt8 := chain.map address

/-- Whether a chain may go onto the bus is seen from its addresses. -/
theorem valid_of_addresses {chain other : List Message} (h : addresses other = addresses chain)
    (hv : Valid chain) : Valid other := by
  unfold addresses at h
  obtain ⟨hne, hall⟩ := hv
  refine ⟨?_, ?_⟩
  · rintro rfl
    exact hne (List.map_eq_nil_iff.mp h.symm)
  · intro m hm
    have hmem : m.address ∈ chain.map address := h ▸ List.mem_map_of_mem hm
    obtain ⟨m', hm', heq⟩ := List.mem_map.mp hmem
    rw [← heq]
    exact hall m' hm'

end Message

namespace Session

/-- An answer to a chain: the chain is handed back with its addresses, and is not called invalid. -/
structure Accepts (chain : List Message) (answer : Answer Nat) : Prop where
  addresses : Message.addresses answer.chain = Message.addresses chain
  accepted : answer.result ≠ .error .invalidChain

variable {bus : Bus} {chain : List Message} {t : Transaction} {answer : Answer Nat}

theorem addresses_of_sound (h : t.Sound chain) :
    Message.addresses t.chain = Message.addresses chain := by
  obtain ⟨moves, hledger⟩ := h.booked
  unfold Message.addresses
  refine List.ext_getElem? fun j => ?_
  rw [hledger.filled, List.getElem?_map, getElem?_filled, Option.map_map, List.getElem?_map]
  rfl

theorem sound_of_settle {idle : Nat} {watched : Watched} (ht : t.Sound chain)
    (h : (settle bus idle t).Returns watched) : watched.transaction.Sound chain := by
  rw [← Observed.fst_settle bus idle t [], returns_map] at h
  obtain ⟨⟨_, sightings⟩, hobserved, rfl⟩ := h
  obtain ⟨_, -, hwaits⟩ := Observed.waits_of_returns hobserved
  exact (hwaits.sound ht).1

theorem accepts_of_conclude (ht : Message.addresses t.chain = Message.addresses chain)
    (h : (conclude bus t).Returns answer) : Accepts chain answer := by
  unfold conclude at h
  split at h
  · simp only [returns_bind, returns_pure] at h
    obtain ⟨_, -, _, -, rfl⟩ := h
    exact ⟨ht, by simp⟩
  · simp only [returns_bind, returns_pure] at h
    obtain ⟨_, -, rfl⟩ := h
    exact ⟨ht, by simp⟩

theorem accepts_of_carry (hc : chain ≠ []) (h : (carry bus chain).Returns answer) :
    Accepts chain answer := by
  simp only [carry, returns_bind] at h
  obtain ⟨status, -, primed, hprimed, watched, hsettle, _, -, h⟩ := h
  have hsound := ((Transaction.sound_start hc).onEvent hprimed).1
  have haddresses := addresses_of_sound (sound_of_settle hsound hsettle)
  split at h
  · exact accepts_of_conclude haddresses h
  · simp only [abandon, returns_bind] at h
    obtain ⟨_, -, cleared, -, h⟩ := h
    cases cleared with
    | ok _ => exact accepts_of_conclude (t := watched.transaction.giveUp) haddresses h
    | error _ =>
      cases returns_pure.mp h
      exact ⟨haddresses, by simp⟩

theorem accepts_of_transact (hc : chain ≠ []) (h : (transact bus chain).Returns answer) :
    Accepts chain answer := by
  simp only [transact, returns_bind] at h
  obtain ⟨idle, -, h⟩ := h
  split at h
  · exact accepts_of_carry hc h
  · obtain ⟨cleared, hclear, h⟩ := returns_bind.mp h
    cases cleared with
    | ok _ => exact accepts_of_carry hc h
    | error error =>
      cases returns_pure.mp h
      cases error_of_clear hclear
      exact ⟨rfl, by simp⟩

end Session

namespace Master

variable {m : Master} {chain : List Message} {trace : List Event}

/-! ## Attempts -/

/-- What calls that run chains come to: the life of the master goes on, and nothing happens if the
master is not installed or the answer is that the chain is invalid. -/
structure Goes {α : Type} (m : Master) (trace : List Event) (result : Except Error α) : Prop where
  story : Story m.bus.config m.installed trace m.installed
  uninstalled : m.installed = false → trace = []
  invalid : result = .error .invalidChain → trace = []

theorem Goes.none {α : Type} (m : Master) (result : Except Error α) : Goes m [] result :=
  ⟨.nil _, fun _ => rfl, fun _ => rfl⟩

/-- What the result holds besides an error does not matter. -/
theorem Goes.map {α : Type} {result : Except Error α} (h : m.Goes trace result) :
    m.Goes trace (result.map fun _ => ()) := by
  refine ⟨h.story, h.uninstalled, ?_⟩
  cases result with
  | ok _ => exact nofun
  | error error =>
    intro hinvalid
    apply h.invalid
    rw [Except.error.inj hinvalid]

theorem accepts_of_transact {answer : Answer Nat} (hv : Message.Valid chain)
    (h : (m.transact chain).Returns answer) : Session.Accepts chain answer := by
  unfold transact at h
  rw [if_pos hv] at h
  split at h
  · simp only [Session.hold, returns_bind] at h
    obtain ⟨granted, -, h⟩ := h
    split at h
    · simp only [returns_bind, returns_pure] at h
      obtain ⟨_, -, result, hresult, _, -, _, -, rfl⟩ := h
      exact Session.accepts_of_transact hv.1 hresult
    · cases returns_pure.mp h
      exact ⟨rfl, by simp⟩
  · obtain ⟨_, -, h⟩ := returns_bind.mp h
    cases returns_pure.mp h
    exact ⟨rfl, by simp⟩

theorem nothing_of_report {α : Type} {a b : α}
    (h : (m.reportNotInstalled >>= fun _ => pure a).Executes trace b) : trace = [] ∧ b = a := by
  obtain ⟨first, _, second, rfl, hreport, hpure⟩ := executes_bind.mp h
  obtain ⟨rfl, rfl⟩ := executes_pure.mp hpure
  rw [executes_notes hreport]
  exact ⟨rfl, rfl⟩

theorem goes_of_transact {answer : Answer Nat} (h : (m.transact chain).Executes trace answer) :
    m.Goes trace answer.result := by
  have hreturns := returns_of_executes h
  unfold transact at h
  split at h
  · rename_i hinstalled
    split at h
    · rename_i hvalid
      obtain ⟨hstretch, -⟩ := Session.stretch_of_hold (Session.inSession_transact m.bus chain) h
      refine ⟨hinstalled.symm ▸ .single hstretch, ?_, ?_⟩
      · intro hm
        rw [hinstalled] at hm
        cases hm
      · intro hresult
        exact absurd hresult (accepts_of_transact hvalid hreturns).accepted
    · obtain ⟨rfl, -⟩ := executes_pure.mp h
      exact .none m _
  · obtain ⟨rfl, -⟩ := nothing_of_report h
    exact .none m _

/-- An attempt is the last one, and tells the answer, or a pause and further attempts follow it. -/
theorem attempts_of_persist {retries left : Nat} {answer : Answer Unit}
    (h : (m.persist retries left chain).Executes trace answer) :
    ∃ first attempt second, trace = first ++ second ∧ (m.transact chain).Executes first attempt ∧
      (second = [] ∧ answer.result = Answer.verdict chain.length attempt.result ∨
        ∃ fewer rest, left = fewer + 1 ∧ second = ⟨.delay (retryMicros * 1000), ()⟩ :: rest ∧
          attempt.result ≠ .error .invalidChain ∧
          (m.persist retries fewer attempt.chain).Executes rest answer) := by
  unfold persist at h
  obtain ⟨first, attempt, second, rfl, hattempt, hrest⟩ := executes_bind.mp h
  refine ⟨first, attempt, second, rfl, hattempt, ?_⟩
  split at hrest
  · rename_i hverdict
    obtain ⟨rfl, rfl⟩ := executes_pure.mp hrest
    exact .inl ⟨rfl, hverdict.symm⟩
  · rename_i hverdict
    obtain ⟨rfl, rfl⟩ := executes_pure.mp hrest
    exact .inl ⟨rfl, hverdict.symm⟩
  · rename_i hother hverdict
    split at hrest
    · obtain ⟨noted, _, _, rfl, hnotes, hpure⟩ := executes_bind.mp hrest
      obtain ⟨rfl, rfl⟩ := executes_pure.mp hpure
      rw [executes_notes hnotes]
      exact .inl ⟨rfl, hverdict.symm⟩
    · rename_i fewer
      obtain ⟨_, _, _, rfl, hpause, hlogged⟩ := executes_bind.mp hrest
      obtain ⟨_, _, rfl, hpaused⟩ := executes_access.mp hpause
      obtain ⟨rfl, -⟩ := executes_pure.mp hpaused
      obtain ⟨noted, _, rest, rfl, hnotes, hagain⟩ := executes_bind.mp hlogged
      rw [executes_notes hnotes]
      refine .inr ⟨fewer, rest, rfl, rfl, ?_, hagain⟩
      intro hresult
      rw [Answer.verdict_eq_invalidChain.mpr hresult] at hverdict
      exact hother (Except.error.inj hverdict).symm

/-- Attempts on a chain that may go onto the bus never say that it is invalid. -/
theorem accepts_of_persist {retries left : Nat} {answer : Answer Unit}
    (hv : Message.Valid chain) (h : (m.persist retries left chain).Executes trace answer) :
    answer.result ≠ .error .invalidChain := by
  induction left generalizing chain trace with
  | zero =>
    obtain ⟨_, attempt, _, -, hattempt, ⟨-, hanswer⟩ | ⟨_, _, hleft, -⟩⟩ := attempts_of_persist h
    · rw [hanswer, Ne, Answer.verdict_eq_invalidChain]
      exact (accepts_of_transact hv (returns_of_executes hattempt)).accepted
    · cases hleft
  | succ left ih =>
    obtain ⟨_, attempt, _, -, hattempt, ⟨-, hanswer⟩ | ⟨_, _, hleft, -, -, hrest⟩⟩ :=
      attempts_of_persist h
    · rw [hanswer, Ne, Answer.verdict_eq_invalidChain]
      exact (accepts_of_transact hv (returns_of_executes hattempt)).accepted
    · cases hleft
      have haccepts := accepts_of_transact hv (returns_of_executes hattempt)
      exact ih (Message.valid_of_addresses haccepts.addresses hv) hrest

theorem story_of_persist {retries left : Nat} {answer : Answer Unit} (hm : m.installed = true)
    (h : (m.persist retries left chain).Executes trace answer) :
    Story m.bus.config m.installed trace m.installed := by
  induction left generalizing chain trace with
  | zero =>
    obtain ⟨first, attempt, _, rfl, hattempt, ⟨rfl, -⟩ | ⟨_, _, hleft, -⟩⟩ := attempts_of_persist h
    · rw [List.append_nil]
      exact (goes_of_transact hattempt).story
    · cases hleft
  | succ left ih =>
    obtain ⟨first, attempt, _, rfl, hattempt, ⟨rfl, -⟩ | ⟨_, rest, hleft, rfl, -, hrest⟩⟩ :=
      attempts_of_persist h
    · rw [List.append_nil]
      exact (goes_of_transact hattempt).story
    · cases hleft
      refine (goes_of_transact hattempt).story.append ?_
      have hpause : Stretch m.bus.config m.installed [⟨.delay (retryMicros * 1000), ()⟩]
          m.installed := hm.symm ▸ .pause _
      exact .cons hpause (ih hrest)

theorem goes_of_retrying {retries : Nat} {answer : Answer Unit}
    (h : (m.transactRetrying retries chain).Executes trace answer) :
    m.Goes trace answer.result := by
  unfold transactRetrying at h
  split at h
  case isFalse =>
    obtain ⟨rfl, -⟩ := nothing_of_report h
    exact .none m _
  rename_i hinstalled
  refine ⟨story_of_persist hinstalled h, ?_, ?_⟩
  · intro hm
    rw [hinstalled] at hm
    cases hm
  · intro hresult
    obtain ⟨first, attempt, second, rfl, hattempt, hend⟩ := attempts_of_persist h
    by_cases hv : Message.Valid chain
    · exact absurd hresult (accepts_of_persist hv h)
    -- an invalid chain is not tried, and not tried again
    unfold transact at hattempt
    rw [if_pos hinstalled, if_neg hv] at hattempt
    obtain ⟨rfl, rfl⟩ := executes_pure.mp hattempt
    rcases hend with ⟨rfl, -⟩ | ⟨_, _, -, -, hother, -⟩
    · rfl
    · exact absurd rfl hother

theorem goes_of_perform {address : UInt8} {operations : List Payload} {answer : Answer Unit}
    (h : (m.perform address operations).Executes trace answer) : m.Goes trace answer.result := by
  unfold perform at h
  split at h
  · obtain ⟨rfl, -⟩ := executes_pure.mp h
    exact .none m _
  split at h
  · obtain ⟨rfl, -⟩ := executes_pure.mp h
    exact .none m _
  · obtain ⟨first, attempt, _, rfl, hattempt, hpure⟩ := executes_bind.mp h
    obtain ⟨rfl, rfl⟩ := executes_pure.mp hpure
    rw [List.append_nil]
    have hgoes := goes_of_transact hattempt
    refine ⟨hgoes.story, hgoes.uninstalled, ?_⟩
    intro hresult
    exact hgoes.invalid (Answer.verdict_eq_invalidChain.mp hresult)

theorem goes_of_recover {result : Except Error Unit} (h : m.recover.Executes trace result) :
    m.Goes trace result := by
  unfold recover at h
  split at h
  case isFalse =>
    obtain ⟨rfl, -⟩ := nothing_of_report h
    exact .none m _
  rename_i hinstalled
  obtain ⟨hstretch, hresult⟩ := Session.stretch_of_hold (Session.inSession_clear m.bus) h
  refine ⟨hinstalled.symm ▸ .single hstretch, ?_, ?_⟩
  · intro hm
    rw [hinstalled] at hm
    cases hm
  · rintro rfl
    rcases hresult with heq | hclear
    · cases heq
    · cases Session.error_of_clear hclear

/-! ## Installing -/

theorem stretch_of_install {result : Except Error Unit × Master} (hm : m.installed = false)
    (h : m.install.Executes trace result) :
    Stretch m.bus.config false trace result.2.installed ∧ result.2.bus = m.bus ∧
      result.1 ≠ .error .invalidChain := by
  unfold install at h
  rw [if_neg (by rw [hm]; exact Bool.false_ne_true)] at h
  simp only [maskLine, routePads, enableClock, executes_bind, executes_access, executes_pure] at h
  obtain ⟨_, _, _, rfl, ⟨_, _, rfl, rfl, -⟩, _, _, _, rfl, ⟨_, _, rfl, rfl, -⟩, _, granted, _, rfl,
    ⟨_, _, rfl, rfl, rfl⟩, hrest⟩ := h
  cases granted with
  | false =>
    obtain ⟨rfl, rfl⟩ := executes_pure.mp hrest
    refine ⟨?_, rfl, by simp⟩
    rw [hm]
    exact .clockless
  | true =>
    simp only [if_true, Controller.setClockControl, writeRegister, disableClock, claimLine,
      executes_bind, executes_access, executes_pure] at hrest
    obtain ⟨_, _, _, rfl, ⟨_, _, rfl, rfl, -⟩, noted, _, _, rfl, hnotes, _, _, _, rfl,
      ⟨_, _, rfl, rfl, -⟩, _, claimed, _, rfl, ⟨_, _, rfl, rfl, rfl⟩, hend⟩ := hrest
    rw [executes_notes hnotes]
    have hstretch : Stretch m.bus.config false _ _ := .install claimed
    cases claimed with
    | ok _ =>
      obtain ⟨rfl, rfl⟩ := executes_pure.mp hend
      exact ⟨hstretch, rfl, by simp⟩
    | error _ =>
      obtain ⟨rfl, rfl⟩ := executes_pure.mp hend
      rw [hm]
      exact ⟨hstretch, rfl, by simp⟩

theorem stretch_of_uninstall {after : Master} (hm : m.installed = true)
    (h : m.uninstall.Executes trace after) :
    Stretch m.bus.config true trace after.installed ∧ after.bus = m.bus := by
  unfold uninstall at h
  rw [if_pos hm] at h
  simp only [maskLine, disableClock, releaseLine, routePads, executes_bind, executes_access,
    executes_pure] at h
  obtain ⟨_, _, _, rfl, ⟨_, _, rfl, rfl, -⟩, _, _, _, rfl, ⟨_, _, rfl, rfl, -⟩, _, _, _, rfl,
    ⟨_, _, rfl, rfl, -⟩, _, _, _, rfl, ⟨_, _, rfl, rfl, -⟩, rfl, rfl⟩ := h
  exact ⟨.uninstall, rfl⟩

end Master

/-! ## Any calls in any order -/

/-- One call to a master. -/
inductive Call
  | install
  | uninstall
  | transact (chain : List Message)
  | write (address : UInt8) (bytes : List UInt8)
  | read (address register : UInt8) (buffer : List UInt8)
  | writeRead (address : UInt8) (bytes buffer : List UInt8)
  | perform (address : UInt8) (operations : List Payload)
  | recover
  deriving DecidableEq

namespace Call

/-- A call, what it answers apart from data, and the master after it. -/
def submit (m : Master) : Call → Program (Except Error Unit × Master)
  | install => m.install
  | uninstall => do
    let after ← m.uninstall
    pure (.ok (), after)
  | transact chain => do
    let answer ← m.transact chain
    pure (answer.result.map fun _ => (), m)
  | write address bytes => do
    let answer ← m.write address bytes
    pure (answer.result, m)
  | read address register buffer => do
    let answer ← m.read address register buffer
    pure (answer.result, m)
  | writeRead address bytes buffer => do
    let answer ← m.writeRead address bytes buffer
    pure (answer.result, m)
  | perform address operations => do
    let answer ← m.perform address operations
    pure (answer.result, m)
  | recover => do
    let result ← m.recover
    pure (result, m)

/-- Calls in order; the master after all of them. -/
def submitAll : Master → List Call → Program Master
  | m, [] => pure m
  | m, call :: rest => do
    let answered ← call.submit m
    submitAll answered.2 rest

/-- The call is turned away: the master is not installed, or it is already, or the answer is that the
chain is invalid. -/
def Rejected (m : Master) (call : Call) (result : Except Error Unit) : Prop :=
  m.installed = false ∧ call ≠ install ∨ m.installed = true ∧ call = install ∨
    result = .error .invalidChain

/-- What any call comes to. -/
structure Leads (m : Master) (call : Call) (trace : List Event) (result : Except Error Unit)
    (after : Master) : Prop where
  story : Story m.bus.config m.installed trace after.installed
  bus : after.bus = m.bus
  rejected : call.Rejected m result → trace = []

variable {m after : Master} {call : Call} {trace : List Event} {result : Except Error Unit}

theorem Leads.of_goes (hcall : call ≠ install) (h : m.Goes trace result) :
    call.Leads m trace result m where
  story := h.story
  bus := rfl
  rejected := by
    rintro (⟨hm, -⟩ | ⟨-, heq⟩ | hinvalid)
    · exact h.uninstalled hm
    · exact absurd heq hcall
    · exact h.invalid hinvalid

theorem leads_install (h : m.install.Executes trace (result, after)) :
    install.Leads m trace result after := by
  cases hm : m.installed with
  | true =>
    unfold Master.install at h
    rw [if_pos hm] at h
    obtain ⟨noted, _, _, rfl, hnotes, hpure⟩ := executes_bind.mp h
    obtain ⟨rfl, heq⟩ := executes_pure.mp hpure
    cases heq
    rw [executes_notes hnotes]
    exact ⟨.nil _, rfl, fun _ => rfl⟩
  | false =>
    obtain ⟨hstretch, hbus, hvalid⟩ := Master.stretch_of_install hm h
    refine ⟨hm.symm ▸ .single hstretch, hbus, ?_⟩
    rintro (⟨-, hother⟩ | ⟨hinstalled, -⟩ | hinvalid)
    · exact absurd rfl hother
    · rw [hm] at hinstalled
      cases hinstalled
    · exact absurd hinvalid hvalid

theorem leads_uninstall (h : m.uninstall.Executes trace after) :
    uninstall.Leads m trace (.ok ()) after := by
  cases hm : m.installed with
  | true =>
    obtain ⟨hstretch, hbus⟩ := Master.stretch_of_uninstall hm h
    refine ⟨hm.symm ▸ .single hstretch, hbus, ?_⟩
    rintro (⟨hother, -⟩ | ⟨-, hother⟩ | hother)
    · rw [hm] at hother
      cases hother
    · cases hother
    · cases hother
  | false =>
    unfold Master.uninstall at h
    rw [if_neg (by rw [hm]; exact nofun)] at h
    obtain ⟨rfl, rfl⟩ := executes_pure.mp h
    exact ⟨.nil _, rfl, fun _ => rfl⟩

/-- A call that hands the answer of a program on and keeps the master. -/
theorem leads_of_goes {α : Type} {p : Program α} {told : α → Except Error Unit}
    (hcall : call ≠ install)
    (hgoes : ∀ {trace a}, p.Executes trace a → m.Goes trace (told a))
    (h : (p >>= fun a => pure (told a, m)).Executes trace (result, after)) :
    call.Leads m trace result after := by
  obtain ⟨_, a, _, rfl, hp, hpure⟩ := executes_bind.mp h
  obtain ⟨rfl, heq⟩ := executes_pure.mp hpure
  cases heq
  rw [List.append_nil]
  exact .of_goes hcall (hgoes hp)

/-- One call: the life of the master goes on, and a rejected call makes no access. -/
theorem leads_submit (h : (call.submit m).Executes trace (result, after)) :
    call.Leads m trace result after := by
  cases call with
  | install => exact leads_install h
  | uninstall =>
    obtain ⟨_, _, _, rfl, hcall, hpure⟩ := executes_bind.mp h
    obtain ⟨rfl, heq⟩ := executes_pure.mp hpure
    cases heq
    rw [List.append_nil]
    exact leads_uninstall hcall
  | transact chain => exact leads_of_goes nofun (fun hcall => (Master.goes_of_transact hcall).map) h
  | write address bytes => exact leads_of_goes nofun Master.goes_of_retrying h
  | read address register buffer => exact leads_of_goes nofun Master.goes_of_retrying h
  | writeRead address bytes buffer => exact leads_of_goes nofun Master.goes_of_retrying h
  | perform address operations => exact leads_of_goes nofun Master.goes_of_perform h
  | recover => exact leads_of_goes nofun Master.goes_of_recover h

/-- Any calls: the whole trace is the life of the master. -/
theorem story_of_submitAll {calls : List Call} (h : (submitAll m calls).Executes trace after) :
    Story m.bus.config m.installed trace after.installed := by
  induction calls generalizing m trace with
  | nil =>
    obtain ⟨rfl, rfl⟩ := executes_pure.mp h
    exact .nil _
  | cons call rest ih =>
    obtain ⟨first, ⟨result, between⟩, second, rfl, hcall, hrest⟩ := executes_bind.mp h
    have hleads := leads_submit hcall
    have hstory := ih hrest
    rw [hleads.bus] at hstory
    exact hleads.story.append hstory

/-- After any calls to a fresh master, on any board, every access of the trace stands in its scope:
registers are touched while the clock is held, events are consumed while the line is unmasked, pads
are used as pins after they were taken from the controller and before they are handed back, and
whenever the clock is given up the controller has them. The trace is a row of whole sessions between
installation and removal, and whatever call comes next makes no access if it is rejected. -/
theorem accesses_in_scope {σ : Type} (hw : Hardware σ) (s : σ) (bus : Bus) (calls : List Call) :
    let o := (submitAll { bus := bus } calls).run hw s
    Enclosed Access.isRegisterAccess ⟨.enableClock bus.config.clock, true⟩
        ⟨.disableClock bus.config.clock, ()⟩ o.trace ∧
      Story bus.config false o.trace o.value.installed ∧
      Enclosed Access.isPoll ⟨.unmaskLine bus.config.line, ()⟩ ⟨.maskLine bus.config.line, ()⟩
        o.trace ∧
      Enclosed Access.isPinAccess ⟨.routePads false, ()⟩ ⟨.routePads true, ()⟩ o.trace ∧
      PadsReturned bus.config.clock [] o.trace ∧
      ∀ call : Call,
        let next := (call.submit o.value).run hw o.state
        call.Rejected o.value next.value.1 → next.trace = [] := by
  intro o
  have hstory : Story bus.config false o.trace o.value.installed :=
    story_of_submitAll (executes_run hw (submitAll { bus := bus } calls) s)
  refine ⟨?_, hstory, ?_, ?_, hstory.pads_returned nofun, ?_⟩
  · exact hstory.enclosed Stretch.registers_enclosed
  · exact hstory.enclosed Stretch.polls_enclosed
  · exact hstory.enclosed Stretch.pins_enclosed
  · intro call next hrejected
    have hexecutes : (call.submit o.value).Executes next.trace (next.value.1, next.value.2) :=
      executes_run hw (call.submit o.value) o.state
    exact (leads_submit hexecutes).rejected hrejected

end Call
end TwoWire
