import TwoWire.Proofs.BenchHistory
/-!
# Tenure of a controller

A controller belongs to the master that has claimed its interrupt line. Whether the line is claimed, how
often it was, and the divider change only where a master is installed or removed. Every other call works
between taking the clock and the line and giving both back. None of this needs a configuration that
fits the bench.
-/
namespace TwoWire

/-- Accesses that neither claim or release the line nor program the divider. -/
def Access.sparesTenure : Access → Bool
  | claimLine _ => false
  | releaseLine _ => false
  | writeRegister .clockControl _ => false
  | _ => true

theorem Access.sparesTenure_of_isTransfer {a : Access} (h : a.isTransfer) : a.sparesTenure := by
  cases a with
  | writeRegister register word => cases register <;> first | rfl | cases h
  | _ => first | rfl | cases h

theorem Access.sparesTenure_of_isClearing {a : Access} (h : a.isClearing) : a.sparesTenure := by
  cases a with
  | writeRegister register word => cases register <;> first | rfl | cases h
  | _ => first | rfl | cases h

/-! ## On the bench -/

namespace Bench

structure Tenure where
  claimed : Bool
  /-- How often the line was claimed. -/
  claims : Nat
  clockControl : UInt32

def tenure (b : Bench) : Tenure := ⟨b.claimed, b.tally.claims, b.clockControl⟩

/-- The clock is gated and the line masked. -/
structure AtRest (b : Bench) : Prop where
  clockOn : b.clockOn = false
  unmasked : b.unmasked = false

variable {b : Bench}

theorem Fitted.tenure {b' : Bench} (h : Fitted b b') (hclaims : b'.tally.claims = b.tally.claims) :
    b'.tenure = b.tenure := by
  rw [Bench.tenure, h.claimed, h.clockControl, hclaims]
  rfl

theorem claims_pushWord (b : Bench) (word : UInt32) :
    (b.pushWord word).tally.claims = b.tally.claims := by
  obtain ⟨starts, htally⟩ := tally_pushWord b word
  rw [htally]

theorem Effect.tenure {request : Access} {b' : Bench} (heffect : Effect b request b')
    (h : request.sparesTenure) : b'.tenure = b.tenure := by
  cases heffect with
  | set hclaims _ => rw [Bench.tenure, hclaims]; rfl
  | lineClaimed => cases h
  | lineReleased => cases h
  | divided => cases h
  | pulled => exact (Fitted.pullByte b).tenure (congrArg Tally.claims (tally_pullByte b))
  | pushed => exact (Fitted.pushWord b _).tenure (claims_pushWord b _)
  | _ => rfl

theorem tenure_run {α : Type} {p : Program α} (h : p.Confined Access.sparesTenure) (b : Bench) :
    (p.run respond b).state.tenure = b.tenure :=
  h.keeps (P := fun b' : Bench => b'.tenure = b.tenure)
    (fun request b' hrequest hsame => ((effect_respond b' request).tenure hrequest).trans hsame) rfl

/-- The line is claimed, or it is refused and nothing has happened. -/
theorem claimLine_cases (b : Bench) (id : UInt32) :
    (∃ error, b.claimLine id = (.error error, b)) ∨
      b.claimed = false ∧ ∃ b', b.claimLine id = (.ok (), b') ∧ (b.AtRest → b'.AtRest) ∧
        b'.tenure = ⟨true, b.tally.claims + 1, b.clockControl⟩ := by
  unfold claimLine
  by_cases hid : id = line
  · cases hclaimed : b.claimed with
    | true => exact .inl ⟨.alreadyClaimed, by rw [if_pos hid, if_pos rfl]⟩
    | false =>
      rw [if_pos hid, if_neg Bool.false_ne_true]
      exact .inr ⟨rfl, _, rfl, fun h => ⟨h.clockOn, h.unmasked⟩, rfl⟩
  · exact .inl ⟨.noSuchLine, by rw [if_neg hid]⟩

end Bench

/-! ## In a session -/

namespace BusClear
open Program

theorem sparing_step (c : BusClear) : c.step.Confined Access.sparesTenure := by
  have hsample := Controller.confined_sample.mono Access.sparesTenure_of_isTransfer
  unfold step
  split
  · trivial
  · refine hsample.bind fun status _ => ?_
    split
    · refine ⟨rfl, fun _ => ?_⟩
      exact ((confined_unblock status).mono Access.sparesTenure_of_isClearing).bind fun _ _ => trivial
    · trivial
  · rename_i issued _
    exact (c.confined_pulseClock issued).mono Access.sparesTenure_of_isClearing
  · exact ⟨rfl, fun _ => ⟨rfl, fun _ => hsample.bind fun _ _ => trivial⟩⟩
  · trivial

theorem sparing_run (c : BusClear) : c.run.Confined Access.sparesTenure := by
  induction c using BusClear.run.induct with
  | case1 c ih =>
    rw [run_eq]
    refine c.sparing_step.bind fun next reached => ?_
    split
    · trivial
    · rename_i unfinished
      exact ih next reached unfinished

end BusClear

namespace Session
open Program

variable (bus : Bus)

theorem sparing_clear : (clear bus).Confined Access.sparesTenure := by
  refine (BusClear.sparing_run _).bind fun cleared _ => ?_
  split
  · trivial
  · exact (confined_notes _).bind fun _ _ => trivial
  · exact ⟨rfl, fun _ => (confined_notes _).bind fun _ _ => trivial⟩

theorem sparing_conclude (t : Transaction) : (conclude bus t).Confined Access.sparesTenure := by
  unfold conclude
  split
  · exact (confined_notes _).bind fun _ _ => (sparing_clear bus).bind fun _ _ => trivial
  · refine Confined.bind ?_ fun _ _ => trivial
    unfold reportIncomplete
    split
    · exact confined_notes _
    · trivial

theorem sparing_abandon (t : Transaction) : (abandon bus t).Confined Access.sparesTenure := by
  refine (confined_notes _).bind fun _ _ => (sparing_clear bus).bind fun cleared _ => ?_
  cases cleared with
  | ok _ => exact sparing_conclude bus _
  | error _ => trivial

theorem sparing_carry (chain : List Message) : (carry bus chain).Confined Access.sparesTenure := by
  have htransfer {α : Type} {p : Program α} (h : p.Confined Access.isTransfer) :
      p.Confined Access.sparesTenure := h.mono Access.sparesTenure_of_isTransfer
  refine (htransfer Controller.confined_sample).bind fun status _ => ?_
  refine (htransfer (Transaction.confined_onEvent _ status)).bind fun primed _ => ?_
  refine (htransfer (confined_settle bus 0 primed)).bind fun watched _ => ?_
  refine Confined.bind ?_ fun _ _ => ?_
  · unfold reportUnrequested
    split
    · exact confined_notes _
    · trivial
  · split
    · exact sparing_conclude bus _
    · exact sparing_abandon bus _

theorem sparing_transact (chain : List Message) :
    (transact bus chain).Confined Access.sparesTenure := by
  have hwait := (confined_awaitIdle bus pollLimit).mono Access.sparesTenure_of_isTransfer
  refine hwait.bind fun idle _ => ?_
  split
  · exact sparing_carry bus chain
  · refine (sparing_clear bus).bind fun cleared _ => ?_
    cases cleared with
    | ok _ => exact sparing_carry bus chain
    | error _ => trivial

end Session

/-! ## Calls that run on the bus -/

namespace Program
open Bench (respond)

variable {α β : Type} {p : Program α}

/-- Played on a bench at rest, the program leaves it at rest and its tenure as it is. -/
def Spares (p : Program α) : Prop :=
  ∀ b : Bench, b.AtRest →
    (p.run respond b).state.AtRest ∧ (p.run respond b).state.tenure = b.tenure

theorem Spares.pure (a : α) : (pure a : Program α).Spares := fun _ h => ⟨h, rfl⟩

theorem Spares.notes (entries : List LogEntry) : (notes entries).Spares := by
  intro b h
  rw [run_notes]
  exact ⟨h, rfl⟩

theorem Spares.delay (nanoseconds : UInt32) : (delay nanoseconds).Spares :=
  fun _ h => ⟨⟨h.clockOn, h.unmasked⟩, rfl⟩

theorem Spares.bind {f : α → Program β} (h : p.Spares) (hf : ∀ a, (f a).Spares) :
    (p >>= f).Spares := by
  intro b hb
  rw [run_bind]
  obtain ⟨hrest, htenure⟩ := h b hb
  obtain ⟨hrest', htenure'⟩ := hf (p.run respond b).value _ hrest
  exact ⟨hrest', htenure'.trans htenure⟩

theorem sparing_hold (bus : Bus) (refused : α) (h : p.Confined Access.sparesTenure) :
    (Session.hold bus refused p).Confined Access.sparesTenure := by
  refine ⟨rfl, fun granted => ?_⟩
  cases granted with
  | false => trivial
  | true => exact ⟨rfl, fun _ => h.bind fun _ _ => ⟨rfl, fun _ => ⟨rfl, fun _ => trivial⟩⟩⟩

/-- A session masks the line and gates the clock at its end, if it opens at all. -/
theorem Spares.hold (bus : Bus) (refused : α) (h : p.Confined Access.sparesTenure) :
    (Session.hold bus refused p).Spares := by
  intro b hb
  refine ⟨?_, Bench.tenure_run (sparing_hold bus refused h) b⟩
  change Bench.AtRest ((Session.hold bus refused p).ends respond b).2
  by_cases hclock : bus.config.clock = Bench.clock
  · have hopen : (enableClock bus.config.clock).ends respond b =
        (true, (b.enableClock Bench.clock).2) := by
      rw [hclock]
      rfl
    rw [Session.hold, ends_bind_eq hopen, if_pos rfl, hclock]
    simp only [ends_bind]
    exact ⟨rfl, rfl⟩
  · have hshut : (enableClock bus.config.clock).ends respond b = (false, b) := if_neg hclock
    rw [Session.hold, ends_bind_eq hshut]
    exact hb

end Program

namespace Master
open Program

variable (m : Master)

theorem spares_transact (chain : List Message) : (m.transact chain).Spares := by
  unfold transact
  split
  · split
    · exact .hold _ _ (Session.sparing_transact m.bus chain)
    · exact .pure _
  · exact (Spares.notes _).bind fun _ => .pure _

theorem spares_persist (retries left : Nat) (chain : List Message) :
    (m.persist retries left chain).Spares := by
  induction left generalizing chain with
  | zero =>
    unfold persist
    refine (m.spares_transact chain).bind fun attempt => ?_
    split
    · exact .pure _
    · exact .pure _
    · exact (Spares.notes _).bind fun _ => .pure _
  | succ left ih =>
    unfold persist
    refine (m.spares_transact chain).bind fun attempt => ?_
    split
    · exact .pure _
    · exact .pure _
    · exact (Spares.delay _).bind fun _ => (Spares.notes _).bind fun _ => ih attempt.chain

theorem spares_retrying (retries : Nat) (chain : List Message) :
    (m.transactRetrying retries chain).Spares := by
  unfold transactRetrying
  split
  · exact m.spares_persist retries retries chain
  · exact (Spares.notes _).bind fun _ => .pure _

theorem spares_perform (address : UInt8) (operations : List Payload) :
    (m.perform address operations).Spares := by
  unfold perform
  split
  · exact .pure _
  split
  · exact .pure _
  · exact (m.spares_transact _).bind fun _ => .pure _

theorem spares_recover : m.recover.Spares := by
  unfold recover
  split
  · exact .hold _ _ (Session.sparing_clear m.bus)
  · exact (Spares.notes _).bind fun _ => .pure _

end Master

/-! ## Any call -/

namespace Call
open Program
open Bench (respond)

/-- What a call can do to the master that makes it and to the tenure of the controller. An installation
that gets the clock but not the line has programmed the divider before it is refused. -/
inductive Shifts (m : Master) (t : Bench.Tenure) :
    Call → Except Error Unit → Master → Bench.Tenure → Prop
  | none {call : Call} {result : Except Error Unit}
      (hinstall : call = install → result ≠ .ok () ∧ result ≠ .error .noInterrupt)
      (huninstall : call = uninstall → m.installed = false) : Shifts m t call result m t
  | refused (hm : m.installed = false) :
      Shifts m t install (.error .noInterrupt) m
        { t with clockControl := m.bus.config.clockControl }
  | granted (hm : m.installed = false) (hfree : t.claimed = false) :
      Shifts m t install (.ok ()) { m with installed := true }
        ⟨true, t.claims + 1, m.bus.config.clockControl⟩
  | removed (hm : m.installed = true) :
      Shifts m t uninstall (.ok ()) { m with installed := false } { t with claimed := false }

variable {m : Master} {b : Bench}

theorem Shifts.bus {call : Call} {result : Except Error Unit} {after : Master} {t t' : Bench.Tenure}
    (h : call.Shifts m t result after t') : after.bus = m.bus := by
  cases h <;> rfl

theorem programmed_tenure (b : Bench) (control : UInt32) :
    (Master.programmed b control).AtRest ∧
      (Master.programmed b control).tenure = { b.tenure with clockControl := control } := by
  refine ⟨⟨?_, ?_⟩, ?_⟩ <;>
    simp [Master.programmed, Bench.mask, Bench.routePads, Bench.enableClock, Bench.writeRegister,
      Bench.disableClock, Bench.tenure]

theorem shifts_install (hb : b.AtRest) :
    let o := m.install.run respond b
    o.state.AtRest ∧ Shifts m b.tenure install o.value.1 o.value.2 o.state.tenure := by
  change let e := m.install.ends respond b
    e.2.AtRest ∧ Shifts m b.tenure install e.1.1 e.1.2 e.2.tenure
  cases hm : m.installed with
  | true =>
    have hends : m.install.ends respond b = ((.error .alreadyInstalled, m), b) := by
      rw [Master.install, if_pos hm, ends_bind_eq (ends_error respond _ _ b)]
      rfl
    rw [hends]
    exact ⟨hb, .none (fun _ => by simp) (by simp)⟩
  | false =>
    by_cases hclock : m.bus.config.clock = Bench.clock
    · obtain ⟨hrest, htenure⟩ := programmed_tenure b m.bus.config.clockControl
      rcases (Master.programmed b m.bus.config.clockControl).claimLine_cases m.bus.config.line with
        ⟨error, hclaim⟩ | ⟨hfree, b', hclaim, hkeeps, hclaimed⟩
      · rw [Master.ends_install hm hclock hclaim]
        dsimp only
        rw [htenure]
        exact ⟨hrest, .refused hm⟩
      · obtain ⟨hclaimed', hclaims, hcontrol⟩ := Bench.Tenure.mk.inj htenure
        rw [Master.ends_install hm hclock hclaim]
        dsimp only
        rw [hclaimed, hclaims, hcontrol]
        exact ⟨hkeeps hrest, .granted hm (hclaimed'.symm.trans hfree)⟩
    · have hmasked : (maskLine m.bus.config.line).ends respond b = ((), b.mask) := rfl
      have hrefused : (enableClock m.bus.config.clock).ends respond (b.mask.routePads true) =
          (false, b.mask.routePads true) := if_neg hclock
      have hends : m.install.ends respond b = ((.error .noClock, m), b.mask.routePads true) := by
        rw [Master.install, if_neg (by rw [hm]; exact Bool.false_ne_true)]
        dsimp only
        rw [ends_bind_eq hmasked, ends_bind_eq (Bench.ends_routePads _ _), ends_bind_eq hrefused]
        rfl
      rw [hends]
      exact ⟨⟨hb.clockOn, rfl⟩, .none (fun _ => by simp) (by simp)⟩

theorem shifts_uninstall (hb : b.AtRest) :
    let o := m.uninstall.run respond b
    o.state.AtRest ∧ Shifts m b.tenure uninstall (.ok ()) o.value o.state.tenure := by
  change let e := m.uninstall.ends respond b
    e.2.AtRest ∧ Shifts m b.tenure uninstall (.ok ()) e.1 e.2.tenure
  cases hm : m.installed with
  | true =>
    let gated := b.mask.disableClock m.bus.config.clock
    have hends : m.uninstall.ends respond b =
        ({ m with installed := false }, { gated with claimed := false }.routePads false) := by
      rw [Master.uninstall, if_pos hm]
      rfl
    obtain ⟨hclock, hline, htenure⟩ :
        gated.clockOn = false ∧ gated.unmasked = false ∧ gated.tenure = b.tenure := by
      unfold gated Bench.disableClock
      split
      · exact ⟨rfl, rfl, rfl⟩
      · exact ⟨hb.clockOn, rfl, rfl⟩
    obtain ⟨-, hclaims, hcontrol⟩ := Bench.Tenure.mk.inj htenure
    rw [hends]
    refine ⟨⟨hclock, hline⟩, ?_⟩
    change Shifts m b.tenure uninstall _ _ ⟨false, gated.tally.claims, gated.clockControl⟩
    rw [hclaims, hcontrol]
    exact .removed hm
  | false =>
    have hends : m.uninstall.ends respond b = (m, b) := by
      rw [Master.uninstall, if_neg (by rw [hm]; exact nofun)]
      rfl
    rw [hends]
    exact ⟨hb, .none nofun fun _ => hm⟩

/-- A call that hands the answer of a program on and keeps the master. -/
theorem shifts_of_spares {α : Type} {p : Program α} {told : α → Except Error Unit} {call : Call}
    (hb : b.AtRest) (hcall : call ≠ install ∧ call ≠ uninstall) (hp : p.Spares) :
    let o := (p >>= fun a => pure (told a, m)).run respond b
    o.state.AtRest ∧ call.Shifts m b.tenure o.value.1 o.value.2 o.state.tenure := by
  intro o
  obtain ⟨hrest, htenure⟩ := hp b hb
  have ho : o = (p.run respond b).andThen
      ⟨(told (p.run respond b).value, m), (p.run respond b).state, [], []⟩ := run_bind respond p _ b
  rw [ho]
  refine ⟨hrest, ?_⟩
  rw [Outcome.state_andThen, Outcome.value_andThen, htenure]
  exact .none (fun h => absurd h hcall.1) fun h => absurd h hcall.2

/-- Whatever is called on a bench at rest leaves it at rest. -/
theorem shifts_submit (hb : b.AtRest) (call : Call) :
    let o := (call.submit m).run respond b
    o.state.AtRest ∧ call.Shifts m b.tenure o.value.1 o.value.2 o.state.tenure := by
  cases call with
  | install => exact shifts_install hb
  | uninstall =>
    intro o
    have ho : o = (m.uninstall.run respond b).andThen
        ⟨(.ok (), (m.uninstall.run respond b).value), (m.uninstall.run respond b).state, [], []⟩ :=
      run_bind respond m.uninstall _ b
    rw [ho]
    exact shifts_uninstall hb
  | transact chain => exact shifts_of_spares hb ⟨nofun, nofun⟩ (m.spares_transact chain)
  | write address bytes => exact shifts_of_spares hb ⟨nofun, nofun⟩ (m.spares_retrying _ _)
  | read address register buffer => exact shifts_of_spares hb ⟨nofun, nofun⟩ (m.spares_retrying _ _)
  | writeRead address bytes buffer => exact shifts_of_spares hb ⟨nofun, nofun⟩ (m.spares_retrying _ _)
  | perform address operations => exact shifts_of_spares hb ⟨nofun, nofun⟩ (m.spares_perform _ _)
  | recover => exact shifts_of_spares hb ⟨nofun, nofun⟩ m.spares_recover

end Call
end TwoWire
