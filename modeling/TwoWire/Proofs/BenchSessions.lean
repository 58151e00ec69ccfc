import TwoWire.Proofs.BenchClear
import TwoWire.Proofs.Calls
/-!
# What sessions leave of the bench

However a session ends, it leaves the controller idle without an error, and the bus free if it went
well. A wait can only come to rest in a poll that found the bus free and moved no byte, so nothing is
left behind by it; a wait that was given up is followed by the clearing of the bus, and that takes
everything from the controller.
-/
namespace TwoWire

namespace Program

variable {α σ : Type} {kind : Access → Bool}

/-- What every access of a kind keeps, a program confined to that kind keeps. -/
theorem Confined.keeps {hw : Hardware σ} {P : σ → Prop}
    (hkeep : ∀ request s, kind request → P s → P (hw request s).2) {p : Program α}
    (hp : p.Confined kind) {s : σ} (h : P s) : P (p.ends hw s).2 := by
  induction p generalizing s with
  | done a => exact h
  | access request next ih =>
    change P ((access request next).run hw s).state
    rw [run_access, Outcome.state_andThen]
    exact ih _ (hp.2 _) (hkeep request s hp.1 h)
  | note entry next ih =>
    change P ((note entry next).run hw s).state
    rw [run_note, Outcome.state_andThen]
    exact ih hp h

end Program

namespace Transaction

variable {chain : List Message} {t : Transaction}

/-- An event that may have left words to send does not end a transaction. -/
theorem terminal_of_advance (h : (t.advance true).phase.isTerminal = true) :
    t.phase.isTerminal = true := by
  unfold advance turn at h
  split at h
  case isFalse => exact h
  split at h
  case isFalse => cases h
  split at h
  case isTrue => cases h
  simp only [Bool.not_true, Bool.false_and, Bool.false_eq_true, if_false] at h
  split at h
  · cases h
  · exact h

/-- A transaction that has ended without a fault has nothing to send. -/
theorem Sound.nextWord?_eq_none (h : t.Sound chain) (hlive : t.isInert = false)
    (hterminal : t.phase.isTerminal = true) : t.nextWord? = none := by
  rcases Session.terminal_cases h hterminal with hfault | hall
  · have hinert := h.isInert_iff.mpr hfault
    rw [hlive] at hinert
    cases hinert
  · obtain ⟨moves, hledger⟩ := h.booked
    rw [← h.length_chain] at hall
    obtain ⟨-, hposition, hleft⟩ := (completed_eq_length_iff hledger.fits).mp hall
    obtain ⟨m, hm, -⟩ := hledger.fits
    obtain ⟨position, hp⟩ := Option.isSome_iff_exists.mp hposition
    rw [nextWord?_of_some hm hp, if_pos hleft]

end Transaction

namespace Bench
open Program (ends ends_bind ends_bind_eq)

variable {bus : Bus} {b b' : Bench} {chain : List Message} {t : Transaction}

/-! ## In a session -/

/-- The bench while a session has it: clock and line are held, and no line is driven by hand. -/
structure Manned (b : Bench) : Prop extends Consistent b where
  clockOn : b.clockOn = true
  unmasked : b.unmasked = true
  padsToBus : b.padsToBus = true
  sclLow : b.sclLow = false
  sdaLow : b.sdaLow = false

namespace Manned

theorem fitted (h : Manned b) (hc : Consistent b') (hf : Fitted b b') : Manned b' :=
  ⟨hc, hf.clockOn.trans h.clockOn, hf.unmasked.trans h.unmasked, hf.padsToBus.trans h.padsToBus,
    hf.sclLow.trans h.sclLow, hf.sdaLow.trans h.sdaLow⟩

theorem respond (h : Manned b) {request : Access} (hplain : request.isPlain) :
    Manned (Bench.respond request b).2 := by
  have hc := h.toConsistent.respond request
  have hon := h.clockOn
  cases request with
  | readRegister register =>
    change Consistent (b.readRegister register).2 at hc
    change Manned (b.readRegister register).2
    rw [readRegister_of_clockOn hon] at hc ⊢
    cases register with
    | readData => exact h.fitted hc (.pullByte b)
    | _ => exact ⟨hc, hon, h.unmasked, h.padsToBus, h.sclLow, h.sdaLow⟩
  | writeRegister register word =>
    change Consistent (b.writeRegister register word) at hc
    change Manned (b.writeRegister register word)
    unfold writeRegister at hc ⊢
    rw [if_pos hon] at hc ⊢
    cases register with
    | writeData => exact h.fitted hc (.pushWord b word)
    | _ => exact ⟨hc, hon, h.unmasked, h.padsToBus, h.sclLow, h.sdaLow⟩
  | takePending id =>
    change Consistent (b.takePending id).2 at hc
    change Manned (b.takePending id).2
    unfold takePending at hc ⊢
    by_cases hasked : id = line ∧ b.unmasked ∧ b.clockOn
    · rw [if_pos hasked] at hc ⊢
      exact ⟨hc, hon, h.unmasked, h.padsToBus, h.sclLow, h.sdaLow⟩
    · rw [if_neg hasked]
      exact h
  | delay _ => exact ⟨hc, hon, h.unmasked, h.padsToBus, h.sclLow, h.sdaLow⟩
  | _ => cases hplain

/-- What a session does while the controller has the pads leaves the bench to it. -/
theorem ends {α : Type} (h : Manned b) {p : Program α} (hp : p.Confined Access.isTransfer)
    {a : α} (hends : p.ends Bench.respond b = (a, b')) : Manned b' := by
  have hplain := hp.mono Access.isPlain_of_isTransfer
  have hkept := hplain.keeps (P := Manned) (fun _ _ hrequest hs => hs.respond hrequest) h
  rwa [hends] at hkept

end Manned

/-! ## Polls that come to rest -/

/-- A poll that finds the bus at rest has found it free and has moved nothing. -/
theorem free_of_poll (hbus : bus.config = config) (h : Manned b) (ht : t.Sound chain)
    {seen : Session.Watched} (hends : (Session.poll bus t).ends respond b = (seen, b'))
    (hquiet : seen.quiet = true) : b'.errors = 0 ∧ b'.isActive = false := by
  have hpoll := ends_poll hbus h.clockOn h.unmasked t
  obtain ⟨hclean, hroom, hfull, hbusy, -⟩ := sample_latched h.latched
  rw [hends] at hpoll
  dsimp only at hpoll
  rw [hbusy] at hpoll
  -- whatever the poll does, the bench is the one that it has looked at
  suffices hsame : b.isActive = false ∧ b' = b.attended by
    rw [hsame.2]
    exact ⟨rfl, hsame.1⟩
  split at hpoll
  case isFalse =>
    obtain ⟨rfl, rfl⟩ := Prod.mk.inj hpoll
    exact ⟨by simpa using hquiet, rfl⟩
  obtain ⟨rfl, rfl⟩ := Prod.mk.inj hpoll
  simp only [Bool.and_eq_true, Bool.not_eq_true'] at hquiet
  obtain ⟨hfree, hterminal⟩ := hquiet
  refine ⟨hfree, ?_⟩
  have hmode := h.idle_of_free hfree
  rw [h.received_eq_none (by simp [hmode])] at hfull
  cases hlive : t.isInert with
  | true => rw [Transaction.onEvent, if_pos hlive]; rfl
  | false =>
    cases hfault : (⟨b.errors ||| b.liveBits⟩ : Status).fault? with
    | some fault => rw [ends_onEvent_fault hlive hfault]
    | none =>
      cases hn : t.nextWord? with
      | none => rw [ends_onEvent_rest hlive hfault hroom hfull hn]
      | some word =>
        have hon : b.attended.clockOn = true := h.clockOn
        rw [ends_onEvent_send hon hlive hfault hroom hfull hn] at hterminal
        have hbefore := Transaction.terminal_of_advance hterminal
        rw [Transaction.phase_sent] at hbefore
        rw [ht.nextWord?_eq_none hlive hbefore] at hn
        cases hn

theorem sound_of_poll (ht : t.Sound chain) {seen : Session.Watched}
    (h : (Session.poll bus t).Returns seen) : seen.transaction.Sound chain := by
  rcases Session.poll_returns h with heq | ⟨status, hevent⟩
  · rw [heq]
    exact ht
  · exact (ht.onEvent hevent).1

/-- A wait that comes to rest has found the bus free in its last poll. -/
theorem free_of_settle (hbus : bus.config = config) (h : Manned b) (ht : t.Sound chain) {idle : Nat}
    {watched : Session.Watched}
    (hends : (Session.settle bus idle t).ends respond b = (watched, b'))
    (hquiet : watched.quiet = true) : b'.errors = 0 ∧ b'.isActive = false := by
  induction idle, t using Session.settle.induct bus generalizing b with
  | case1 idle t early ihStill ihMoved =>
    have hpolled : (Session.poll bus t).Returns ((Session.poll bus t).ends respond b).1 :=
      Program.returns_value_run _ _ _
    generalize hpoll : (Session.poll bus t).ends respond b = polled at hpolled
    obtain ⟨seen, b₁⟩ := polled
    have hmanned := h.ends (Session.confined_poll bus t) hpoll
    have hsound := sound_of_poll ht hpolled
    rw [Session.settle_eq, if_pos early, ends_bind_eq hpoll] at hends
    split at hends
    case isTrue hrest =>
      obtain ⟨rfl, rfl⟩ := Prod.mk.inj hends
      exact free_of_poll hbus h ht hpoll hrest
    split at hends
    case isTrue hsame =>
      rw [ends_bind] at hends
      have hpaused := hmanned.ends (Session.confined_backoff idle) rfl
      exact ihStill seen hpolled hsame hpaused hsound hends
    case isFalse hother => exact ihMoved seen hpolled hother hmanned hsound hends
  | case2 idle t late =>
    rw [ends_settle_limit (Nat.le_of_not_lt late)] at hends
    obtain ⟨rfl, -⟩ := Prod.mk.inj hends
    cases hquiet

/-! ## What a session leaves -/

/-- The bench at the end of a session: the controller is idle without an error, and the bus is free
if all went well. -/
structure Left (b : Bench) (well : Bool) : Prop extends Manned b where
  mode : b.mode = .idle
  errors : b.errors = 0
  free : well = true → b.isActive = false

theorem Manned.left (h : Manned b) (hfree : b.errors = 0 ∧ b.isActive = false) (well : Bool) :
    Left b well :=
  ⟨h, h.idle_of_free hfree.2, hfree.1, fun _ => hfree.2⟩

theorem Left.any (h : Left b true) (well : Bool) : Left b well :=
  ⟨h.toManned, h.mode, h.errors, fun _ => h.free rfl⟩

/-- Clearing a bus that is free. -/
theorem left_clear_free (bus : Bus) (h : Manned b) (hfree : b.isActive = false) :
    (Session.clear bus).ends respond b = (.ok (), { b with errors := 0 }) ∧
      Left { b with errors := 0 } true := by
  have hmanned := h.ends Controller.confined_sample (ends_sample h.clockOn)
  exact ⟨ends_clear_free h.clockOn h.latched hfree, hmanned.left ⟨rfl, hfree⟩ true⟩

theorem left_clear (hbus : bus.config = config) (h : Manned b) {result : Except Error Unit}
    (hends : (Session.clear bus).ends respond b = (result, b')) : Left b' result.isOk := by
  cases hactive : b.isActive with
  | false =>
    obtain ⟨hclear, hleft⟩ := left_clear_free bus h hactive
    obtain ⟨rfl, rfl⟩ := Prod.mk.inj (hends.symm.trans hclear)
    exact hleft
  | true =>
    obtain ⟨b₁, hclear, hr⟩ := ends_clear hbus h.clockOn h.latched hactive
    obtain ⟨rfl, rfl⟩ := Prod.mk.inj (hends.symm.trans hclear)
    refine ⟨⟨⟨⟨?_, ?_⟩, ?_, ?_, ?_⟩, hr.clockOn.trans h.clockOn, hr.unmasked.trans h.unmasked,
      hr.padsToBus, hr.sclLow, hr.sdaLow⟩, hr.mode, hr.errors, fun hok => ?_⟩
    · simp [hr.mode]
    · simp [hr.stalled]
    · simp [hr.master, hr.mode]
    · simp [hr.received]
    · rw [hr.errors]
      exact latches_zero
    · have hheld : b'.heldPulses = 0 := by
        rw [hr.heldPulses]
        split at hok
        · unfold pulsesNeeded
          omega
        · cases hok
      simp [isActive, sdaHeld, hr.busActive, hheld]

theorem left_conclude (h : Left b true) {answer : Answer Nat}
    (hends : (Session.conclude bus t).ends respond b = (answer, b')) : Left b' true := by
  cases hfault : t.fault with
  | none =>
    rw [ends_conclude respond b bus hfault] at hends
    obtain ⟨-, rfl⟩ := Prod.mk.inj hends
    exact h
  | some fault =>
    obtain ⟨hclear, hleft⟩ := left_clear_free bus h.toManned (h.free rfl)
    rw [Session.conclude, hfault] at hends
    dsimp only at hends
    rw [ends_bind_eq (Program.ends_error respond bus.logger _ b), ends_bind_eq hclear] at hends
    obtain ⟨-, rfl⟩ := Prod.mk.inj hends
    exact hleft

theorem left_abandon (hbus : bus.config = config) (h : Manned b) {answer : Answer Nat}
    (hends : (Session.abandon bus t).ends respond b = (answer, b')) :
    Left b' answer.result.isOk := by
  generalize hclear : (Session.clear bus).ends respond b = cleared
  obtain ⟨result, b₁⟩ := cleared
  have hleft := left_clear hbus h hclear
  rw [Session.abandon, ends_bind_eq (Program.ends_debug respond bus.logger _ b),
    ends_bind_eq hclear] at hends
  cases result with
  | ok _ => exact (left_conclude hleft hends).any _
  | error error =>
    obtain ⟨rfl, rfl⟩ := Prod.mk.inj hends
    exact hleft

theorem left_carry (hbus : bus.config = config) (h : Manned b) (hc : chain ≠ [])
    {answer : Answer Nat} (hends : (Session.carry bus chain).ends respond b = (answer, b')) :
    Left b' answer.result.isOk := by
  let status : Status := ⟨b.errors ||| b.liveBits⟩
  have hsample : Controller.sample.ends respond b = (status, { b with errors := 0 }) :=
    ends_sample h.clockOn
  have hsampled := h.ends Controller.confined_sample hsample
  have hbegun : ((Transaction.start chain).onEvent status).Returns
      (((Transaction.start chain).onEvent status).ends respond { b with errors := 0 }).1 :=
    Program.returns_value_run _ _ _
  generalize hevent : ((Transaction.start chain).onEvent status).ends respond
    { b with errors := 0 } = primed at hbegun
  obtain ⟨t, b₁⟩ := primed
  have hprimed := hsampled.ends (Transaction.confined_onEvent _ status) hevent
  have hsound := ((Transaction.sound_start hc).onEvent hbegun).1
  generalize hsettle : (Session.settle bus 0 t).ends respond b₁ = settled
  obtain ⟨watched, b₂⟩ := settled
  have hmanned := hprimed.ends (Session.confined_settle bus 0 t) hsettle
  rw [Session.carry, ends_bind_eq hsample, ends_bind_eq hevent, ends_bind_eq hsettle,
    ends_bind_eq (ends_reportUnrequested _ _ _ _)] at hends
  split at hends
  case isTrue hquiet =>
    have hfree := free_of_settle hbus hprimed hsound hsettle hquiet
    exact (left_conclude (hmanned.left hfree true) hends).any _
  case isFalse => exact left_abandon hbus hmanned hends

theorem left_transact (hbus : bus.config = config) (h : Manned b) (hc : chain ≠ [])
    {answer : Answer Nat} (hends : (Session.transact bus chain).ends respond b = (answer, b')) :
    Left b' answer.result.isOk := by
  generalize hwait : (Session.awaitIdle bus Session.pollLimit).ends respond b = waited
  obtain ⟨idle, b₁⟩ := waited
  have hmanned := h.ends (Session.confined_awaitIdle bus _) hwait
  rw [Session.transact, ends_bind_eq hwait] at hends
  split at hends
  · exact left_carry hbus hmanned hc hends
  · generalize hclear : (Session.clear bus).ends respond b₁ = cleared
    obtain ⟨result, b₂⟩ := cleared
    have hleft := left_clear hbus hmanned hclear
    rw [ends_bind_eq hclear] at hends
    cases result with
    | ok _ => exact left_carry hbus hleft.toManned hc hends
    | error error =>
      obtain ⟨rfl, rfl⟩ := Prod.mk.inj hends
      exact hleft

end Bench
end TwoWire
