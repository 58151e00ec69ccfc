import TwoWire.Proofs.Retries
import TwoWire.Proofs.StalledWrite
/-!
# Jams

A slave that lost clocks holds SDA, and the bus is jammed until it has had the pulses that it needs.
Every try to clear the bus makes up to nine of them, and a transaction that meets a jam begins with
such a try. So a jam is cleared by repeating either of the two, and it takes one try for every nine
pulses.
-/
namespace TwoWire
namespace Bench
open Program (ends ends_bind_eq)

variable {bus : Bus} {b b' : Bench} {slaves : Slaves} {held starts pulses : Nat}

/-- A slave holds SDA until it has had `held` more pulses, or the bus is free if these are none. No
error is pending. -/
structure Jammed (b : Bench) (slaves : Slaves) (held starts pulses : Nat) : Prop where
  errors : b.errors = 0
  heldPulses : b.heldPulses = held
  isActive : b.isActive = decide (held ≠ 0)
  slaves : b.slaves = slaves
  starts : b.tally.starts = starts
  pulses : b.tally.pulses = pulses

/-- A slave that is made to hold SDA jams a bench at which nothing goes on. -/
theorem Quiescent.jammed (h : Quiescent b) (holder : UInt8) :
    Jammed (b.wedge holder) b.slaves (b.wedge holder).heldPulses b.tally.starts b.tally.pulses where
  errors := h.errors
  heldPulses := rfl
  isActive := by
    rw [decide_eq_true (heldPulses_wedge_ne_zero b holder)]
    rfl
  slaves := rfl
  starts := rfl
  pulses := rfl

namespace Jammed

theorem opened (h : Jammed b slaves held starts pulses) :
    Jammed b.opened slaves held starts pulses :=
  ⟨h.errors, h.heldPulses, h.isActive, h.slaves, h.starts, h.pulses⟩

theorem closed (h : Jammed b slaves held starts pulses) :
    Jammed b.closed slaves held starts pulses :=
  ⟨h.errors, h.heldPulses, h.isActive, h.slaves, h.starts, h.pulses⟩

theorem delay (h : Jammed b slaves held starts pulses) (nanoseconds : UInt32) :
    Jammed (b.delay nanoseconds) slaves held starts pulses :=
  ⟨h.errors, h.heldPulses, h.isActive, h.slaves, h.starts, h.pulses⟩

theorem alike (h : Jammed b slaves held starts pulses) (ha : Alike b b') :
    Jammed b' slaves held starts pulses := by
  obtain ⟨edge, delayed, rfl⟩ := ha
  exact ⟨h.errors, h.heldPulses, h.isActive, h.slaves, h.starts, h.pulses⟩

/-- Every pulse brings the end of a jam one step nearer. -/
theorem clocked (h : Jammed b slaves held starts pulses) {issued : Nat} (hc : Clocked b issued b') :
    Jammed b' slaves (held - issued) starts (pulses + issued) where
  errors := hc.errors
  heldPulses := by rw [hc.heldPulses, h.heldPulses]
  isActive := by simp [Bench.isActive, sdaHeld, hc.busActive, hc.heldPulses, h.heldPulses]
  slaves := hc.slaves.trans h.slaves
  starts := hc.starts.trans h.starts
  pulses := by rw [hc.pulses, h.pulses]

end Jammed

/-! ## One try -/

/-- What a try to clear a bus comes to that needs `held` pulses. -/
def relief (held : Nat) : Except Error Unit := if held ≤ 9 then .ok () else .error .notReady

/-- A try to clear the bus makes the pulses that are needed, up to nine. -/
theorem ends_clear_jammed (hbus : bus.config = config) (hc : b.clockOn = true)
    (h : Jammed b slaves held starts pulses) :
    ∃ b', (Session.clear bus).ends respond b = (relief held, b') ∧
      Jammed b' slaves (held - 9) starts (pulses + min held 9) := by
  have hl : Latches b.errors := h.errors ▸ latches_zero
  by_cases hfree : held = 0
  · have hidle : b.isActive = false := by simp [h.isActive, hfree]
    have hclear : (Session.clear bus).ends respond b = (.ok (), { b with errors := 0 }) :=
      ends_clear_free hc hl hidle
    subst hfree
    exact ⟨_, hclear, rfl, h.heldPulses, h.isActive, h.slaves, h.starts, h.pulses⟩
  · have hactive : b.isActive = true := by simp [h.isActive, hfree]
    obtain ⟨b', hclear, hrestored⟩ := ends_clear hbus hc hl hactive
    have hissued : min b.pulsesNeeded BusClear.pulseLimit = min held 9 := by
      simp only [pulsesNeeded, h.heldPulses, BusClear.pulseLimit]
      omega
    have hleft : held - min held 9 = held - 9 := by omega
    rw [hissued] at hrestored
    rw [h.heldPulses] at hclear
    have hjammed := h.clocked hrestored.toClocked
    rw [hleft] at hjammed
    exact ⟨b', hclear, hjammed⟩

section
variable {m : Master} {chain : List Message} (hm : m.installed = true)
  (hbus : m.bus.config = config)
include hm hbus

theorem ends_recover (h : Jammed b slaves held starts pulses) :
    ∃ b', m.recover.ends respond b = (relief held, b') ∧
      Jammed b' slaves (held - 9) starts (pulses + min held 9) := by
  obtain ⟨b', hclear, hjammed⟩ := ends_clear_jammed hbus rfl h.opened
  refine ⟨b'.closed, ?_, hjammed.closed⟩
  rw [Master.recover, if_pos hm]
  exact ends_hold hbus hclear

omit hm in
/-- While the bus is jammed the wait for it is in vain. -/
theorem ends_awaitIdle_jammed (h : Jammed b slaves held starts pulses) (hheld : held ≠ 0) :
    ∃ b', (Session.awaitIdle m.bus Session.pollLimit).ends respond b.opened = (false, b') ∧
      Jammed b' slaves held starts pulses ∧ b'.clockOn = true ∧ b'.unmasked = true := by
  have hactive : b.opened.isActive = true := by simp [h.opened.isActive, hheld]
  obtain ⟨b', hwait, halike⟩ :=
    ends_awaitIdle_active hbus rfl rfl h.opened.errors hactive Session.pollLimit
  have hjammed := h.opened.alike halike
  obtain ⟨edge, delayed, rfl⟩ := halike
  exact ⟨_, hwait, hjammed, rfl, rfl⟩

/-- A transaction is not begun if the jam needs more than nine pulses. -/
theorem ends_transact_stuck (hvalid : Message.Valid chain)
    (h : Jammed b slaves held starts pulses) (hheld : 9 < held) :
    ∃ b', (m.transact chain).ends respond b = (⟨.error .notReady, chain⟩, b') ∧
      Jammed b' slaves (held - 9) starts (pulses + 9) := by
  obtain ⟨b₁, hwait, h₁, hc, -⟩ := ends_awaitIdle_jammed hbus h (show held ≠ 0 by omega)
  obtain ⟨b₂, hclear, hjammed⟩ := ends_clear_jammed hbus hc h₁
  rw [relief, if_neg (show ¬ held ≤ 9 by omega)] at hclear
  rw [Nat.min_eq_right (show 9 ≤ held by omega)] at hjammed
  refine ⟨b₂.closed, ?_, hjammed.closed⟩
  rw [Master.transact, if_pos hm, if_pos hvalid]
  refine ends_hold hbus ?_
  rw [Session.transact, ends_bind_eq hwait, if_neg Bool.false_ne_true, ends_bind_eq hclear]
  rfl

/-- Otherwise it goes on as if the bus had been free. -/
theorem ends_transact_freed (hvalid : Message.Valid chain)
    (hw : ∀ w ∈ chain.dropLast, w.isRead = false) (hs : ∀ w ∈ chain, Slaves.Serve slaves w)
    (h : Jammed b slaves held starts pulses) (hheld : held ≠ 0) (hle : held ≤ 9) :
    ∃ b', (m.transact chain).ends respond b =
        (⟨.ok chain.length, Slaves.answers slaves chain⟩, b') ∧
      b'.slaves = Slaves.replay slaves chain ∧ b'.tally.starts = starts + 1 ∧
      b'.tally.pulses = pulses + held := by
  obtain ⟨b₁, hwait, h₁, hc, hu⟩ := ends_awaitIdle_jammed hbus h hheld
  have hactive : b₁.isActive = true := by simp [h₁.isActive, hheld]
  obtain ⟨b₂, hclear, hrestored⟩ := ends_clear hbus hc (h₁.errors ▸ latches_zero) hactive
  have hneeded : min b₁.pulsesNeeded BusClear.pulseLimit = held := by
    simp only [pulsesNeeded, h₁.heldPulses, BusClear.pulseLimit]
    omega
  rw [h₁.heldPulses, if_pos (show held ≤ BusClear.pulseLimit from hle)] at hclear
  rw [hneeded] at hrestored
  have hrested := hrestored.toClocked.rested hc hu (Nat.le_of_eq h₁.heldPulses)
  rw [h₁.slaves, h₁.starts, h₁.pulses] at hrested
  have hserve : ∀ w ∈ chain, Slaves.Serve b₂.slaves w := by rwa [hrested.slaves]
  obtain ⟨b₃, hcarry, hdone⟩ := ends_carry_served hbus hrested.isOpen hvalid hw hserve
  have hbegun : b₂.begun = starts + 1 := by rw [begun, if_pos hrested.mode, hrested.starts]
  rw [hrested.slaves] at hcarry
  rw [hrested.slaves, hbegun, hrested.pulses] at hdone
  refine ⟨b₃.closed, ?_, hdone.closed.2⟩
  rw [Master.transact, if_pos hm, if_pos hvalid]
  refine ends_hold hbus ?_
  rw [Session.transact, ends_bind_eq hwait, if_neg Bool.false_ne_true, ends_bind_eq hclear]
  exact hcarry

end
end Bench

/-! ## Try after try -/

/-- Try to free the bus several times. -/
def Master.recoverTimes (m : Master) : Nat → Program (List (Except Error Unit))
  | 0 => pure []
  | calls + 1 => do
    let first ← m.recover
    let others ← m.recoverTimes calls
    pure (first :: others)

namespace Bench
open Program (ends ends_bind_eq)

variable {b : Bench} {slaves : Slaves} {held starts pulses : Nat} {m : Master}
  {chain : List Message}

theorem ends_recoverTimes (hm : m.installed = true) (hbus : m.bus.config = config)
    (h : Jammed b slaves held starts pulses) (calls : Nat) :
    ∃ b', (m.recoverTimes calls).ends respond b =
        ((List.range calls).map fun i => if held ≤ 9 * (i + 1) then .ok () else .error .notReady,
          b') ∧
      Jammed b' slaves (held - 9 * calls) starts (pulses + min held (9 * calls)) := by
  induction calls generalizing b held pulses with
  | zero => exact ⟨b, rfl, by simpa using h⟩
  | succ calls ih =>
    obtain ⟨b₁, hfirst, h₁⟩ := ends_recover hm hbus h
    obtain ⟨b', hothers, h'⟩ := ih h₁
    refine ⟨b', ?_, ?_⟩
    · have hlater (i : Nat) : held - 9 ≤ 9 * (i + 1) ↔ held ≤ 9 * (i + 1 + 1) := by omega
      rw [Master.recoverTimes, ends_bind_eq hfirst, ends_bind_eq hothers]
      simp [List.range_succ_eq_map, Function.comp_def, relief, hlater]
    · have hleft : held - 9 - 9 * calls = held - 9 * (calls + 1) := by omega
      have hmade : pulses + min held 9 + min (held - 9) (9 * calls) =
          pulses + min held (9 * (calls + 1)) := by omega
      rwa [hleft, hmade] at h'

theorem not_final_notReady (requested : Nat) : ¬ Answer.Final requested (.error .notReady) := by
  simp [Answer.Final]

section
variable (hm : m.installed = true) (hbus : m.bus.config = config) (hvalid : Message.Valid chain)
include hm hbus hvalid

/-- With few attempts every one of them meets the jam. -/
theorem ends_persist_stuck {left : Nat} (h : Jammed b slaves held starts pulses)
    (hheld : 9 * (left + 1) < held) (retries : Nat) :
    ∃ b', (m.persist retries left chain).ends respond b = (⟨.error .notReady, chain⟩, b') ∧
      Jammed b' slaves (held - 9 * (left + 1)) starts (pulses + 9 * (left + 1)) := by
  induction left generalizing b held pulses with
  | zero =>
    obtain ⟨b', hends, hjammed⟩ := ends_transact_stuck hm hbus hvalid h hheld
    exact ⟨b', Master.ends_persist_last hends retries (.inr rfl), hjammed⟩
  | succ left ih =>
    obtain ⟨b₁, hends, h₁⟩ := ends_transact_stuck hm hbus hvalid h (by omega)
    have hpaused : Jammed (respond Master.pause b₁).2 _ _ _ _ := h₁.delay _
    obtain ⟨b', hrest, h'⟩ := ih hpaused (by omega)
    refine ⟨b', ?_, ?_⟩
    · rw [Master.ends_persist_again hends (not_final_notReady _)]
      exact hrest
    · have hleft : held - 9 - 9 * (left + 1) = held - 9 * (left + 1 + 1) := by omega
      have hmade : pulses + 9 + 9 * (left + 1) = pulses + 9 * (left + 1 + 1) := by omega
      rwa [hleft, hmade] at h'

variable (hw : ∀ w ∈ chain.dropLast, w.isRead = false)
include hw

/-- With enough of them one gets through, and it is the only one that is begun. -/
theorem ends_persist_freed {left : Nat} (hs : ∀ w ∈ chain, Slaves.Serve slaves w)
    (h : Jammed b slaves held starts pulses) (hheld : held ≠ 0) (hle : held ≤ 9 * (left + 1))
    (retries : Nat) :
    ∃ b', (m.persist retries left chain).ends respond b =
        (⟨.ok (), Slaves.answers slaves chain⟩, b') ∧
      b'.slaves = Slaves.replay slaves chain ∧ b'.tally.starts = starts + 1 ∧
      b'.tally.pulses = pulses + held := by
  induction left generalizing b held pulses with
  | zero =>
    obtain ⟨b', hends, hend⟩ := ends_transact_freed hm hbus hvalid hw hs h hheld hle
    exact ⟨b', Master.ends_persist_done hends retries 0, hend⟩
  | succ left ih =>
    by_cases hnow : held ≤ 9
    · obtain ⟨b', hends, hend⟩ := ends_transact_freed hm hbus hvalid hw hs h hheld hnow
      exact ⟨b', Master.ends_persist_done hends retries _, hend⟩
    · obtain ⟨b₁, hends, h₁⟩ := ends_transact_stuck hm hbus hvalid h (by omega)
      have hpaused : Jammed (respond Master.pause b₁).2 _ _ _ _ := h₁.delay _
      obtain ⟨b', hrest, hslaves, hstarts, hpulses⟩ := ih hpaused (by omega) (by omega)
      refine ⟨b', ?_, hslaves, hstarts, ?_⟩
      · rw [Master.ends_persist_again hends (not_final_notReady _)]
        exact hrest
      · rw [hpulses]
        omega

/-- On a bench that is not jammed the first attempt gets through. -/
theorem ends_persist_quiescent (hb : Quiescent b) (hs : ∀ w ∈ chain, Slaves.Serve b.slaves w)
    (retries left : Nat) :
    ∃ b', (m.persist retries left chain).ends respond b =
        (⟨.ok (), Slaves.answers b.slaves chain⟩, b') ∧
      b'.slaves = Slaves.replay b.slaves chain := by
  obtain ⟨b₁, hcarry, hrested⟩ := ends_carry_served hbus hb.attended hvalid hw hs
  obtain ⟨b', hends, -, hslaves, -⟩ := ends_transact_rested hm hbus hb hvalid hcarry hrested
  exact ⟨b', Master.ends_persist_done hends retries left, hslaves⟩

end
end Bench

namespace Master

variable {m : Master}

/-- A jam is cleared by repeating, with nine pulses a try. Of calls to free the bus all succeed from
the first one on for which the pulses of all calls so far are enough, and no pulse is made beyond
those that are needed. A call that is tried again meets the jam with each of its eleven attempts:
either their pulses are enough, and then it comes to the same as on a bench without the jam, after a
single start condition, or it fails before the first one and leaves the slaves alone. -/
theorem recovery_converges (hm : m.installed = true) (hconfig : m.bus.config = Bench.config)
    {b : Bench} (hb : b.Quiescent) (holder : UInt8) {held : Nat}
    (hheld : (b.wedge holder).heldPulses = held) :
    (∀ calls : Nat,
      let o := (m.recoverTimes calls).run Bench.respond (b.wedge holder)
      o.value = (List.range calls).map (fun i =>
          if held ≤ 9 * (i + 1) then .ok () else .error .notReady) ∧
        o.state.tally.pulses = b.tally.pulses + min held (9 * calls)) ∧
    ∀ (address : UInt8) (call : Program (Answer Unit)) (chain : List Message) (s : Bench.Slave),
      m.Retried address call chain → address ≤ 0x7f → b.slaves.get address = some s →
      s.acknowledges → s.stallAfter = none →
      let free := call.run Bench.respond b
      let o := call.run Bench.respond (b.wedge holder)
      if held ≤ 99 then
        o.value = free.value ∧ o.value.result = .ok () ∧ o.state.slaves = free.state.slaves ∧
          o.state.tally.starts = b.tally.starts + 1 ∧
          o.state.tally.pulses = b.tally.pulses + held
      else
        o.value = ⟨.error .notReady, chain⟩ ∧ o.state.slaves = b.slaves ∧
          o.state.tally.starts = b.tally.starts ∧
          o.state.tally.pulses = b.tally.pulses + 99 := by
  have hjammed := hb.jammed holder
  have hne := Bench.heldPulses_wedge_ne_zero b holder
  rw [hheld] at hjammed hne
  constructor
  · intro calls o
    obtain ⟨b', hends, hend⟩ := Bench.ends_recoverTimes hm hconfig hjammed calls
    obtain ⟨hvalue, hstate⟩ : o.value = _ ∧ o.state = _ := Program.run_of_ends hends
    exact ⟨hvalue, hstate ▸ hend.pulses⟩
  · intro address call chain s hcall haddress hs hack hstall free o
    have hvalid := hcall.valid_iff.mpr haddress
    have hserve : ∀ w ∈ chain, Bench.Slaves.Serve b.slaves w := fun w hw => by
      rw [Bench.Slaves.Serve, hcall.address_eq w hw]
      exact ⟨haddress, s, hs, hack, hstall⟩
    split
    case isTrue hle =>
      have henough : held ≤ 9 * (10 + 1) := hle
      obtain ⟨b₁, hfree, hslaves₁⟩ :=
        Bench.ends_persist_quiescent hm hconfig hvalid hcall.reads hb hserve 10 10
      obtain ⟨b₂, hends, hslaves₂, hstarts, hpulses⟩ :=
        Bench.ends_persist_freed hm hconfig hvalid hcall.reads hserve hjammed hne
          henough 10
      rw [← hcall.call_eq hm] at hfree hends
      obtain ⟨hvalue₁, hstate₁⟩ : free.value = _ ∧ free.state = _ := Program.run_of_ends hfree
      obtain ⟨hvalue₂, hstate₂⟩ : o.value = _ ∧ o.state = _ := Program.run_of_ends hends
      rw [hvalue₂, hstate₂, hvalue₁, hstate₁]
      exact ⟨rfl, rfl, hslaves₂.trans hslaves₁.symm, hstarts, hpulses⟩
    case isFalse hmore =>
      have hshort : 9 * (10 + 1) < held := Nat.lt_of_not_le hmore
      obtain ⟨b', hends, hend⟩ :=
        Bench.ends_persist_stuck hm hconfig hvalid hjammed hshort 10
      rw [← hcall.call_eq hm] at hends
      obtain ⟨hvalue, hstate⟩ : o.value = _ ∧ o.state = _ := Program.run_of_ends hends
      rw [hvalue, hstate]
      exact ⟨rfl, hend.slaves, hend.starts, hend.pulses⟩

/-- A bench with one register file, and a slave that needs twenty pulses once it holds SDA. -/
def stuckBench : Bench := registerBench.attach 0x50 (.stuck 20)

theorem recovery_converges_on_stuckBench :
    stuckBench.Quiescent ∧ (stuckBench.wedge 0x50).heldPulses = 20 ∧
      (let o := (benchMaster.recoverTimes 3).run Bench.respond (stuckBench.wedge 0x50)
      o.value = [.error .notReady, .error .notReady, .ok ()] ∧ o.state.tally.pulses = 20) ∧
      let o := (benchMaster.write 0x48 [16, 7]).run Bench.respond (stuckBench.wedge 0x50)
      o.value.result = .ok () ∧ o.state.tally.starts = 1 := by
  have hb : stuckBench.Quiescent :=
    ⟨(Bench.coherent_empty.attach _ _).attach _ _, rfl, rfl, rfl, rfl, rfl, rfl⟩
  have hholder : stuckBench.slaves.get 0x50 = some (.ofDevice (.stuck 20)) :=
    ByteTable.get_set_self _ _ _
  have hheld : (stuckBench.wedge 0x50).heldPulses = 20 := by
    simp [Bench.wedge, Bench.slave?, hholder, Bench.Slave.ofDevice]
  have hslave : stuckBench.slaves.get 0x48 = some (.ofDevice (.registers [(16, 5)])) := by
    rw [stuckBench, Bench.attach, ByteTable.get_set_of_ne _ _ (by decide)]
    exact ByteTable.get_set_self _ _ _
  obtain ⟨hrecover, hcall⟩ := recovery_converges (m := benchMaster) rfl rfl hb 0x50 hheld
  have hwrite := hcall 0x48 _ _ _ (.write [16, 7]) (by decide) hslave rfl rfl
  rw [if_pos (by decide)] at hwrite
  obtain ⟨-, hok, -, hstarts, -⟩ := hwrite
  exact ⟨hb, hheld, hrecover 3, hok, hstarts⟩

end Master
end TwoWire
