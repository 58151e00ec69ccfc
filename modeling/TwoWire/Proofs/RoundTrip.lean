import TwoWire.Board.Companion
import TwoWire.Proofs.StalledRead
/-!
# What is written is read back

A read of registers aims at its first register anew, so it does not matter where the pointer of the
slave was left, nor that a read of a single byte moves it on by two. After a write, any number of reads
from the same register on find what was written; around the last register both parts wrap in the same
way. The client of the companion chip sends its commands as such writes and reads.
-/
namespace TwoWire

/-- A program that gives the same answer wherever a property holds, and keeps the property, does so any
number of times. -/
theorem Program.ends_mapM_of_keeps {σ α β : Type} {hw : Hardware σ} {p : α → Program β} {answer : β}
    {P : σ → Prop} {inputs : List α}
    (hstep : ∀ input ∈ inputs, ∀ s, P s → ∃ s', (p input).ends hw s = (answer, s') ∧ P s')
    {s : σ} (h : P s) :
    ∃ s', (inputs.mapM p).ends hw s = (inputs.map fun _ => answer, s') ∧ P s' := by
  induction inputs generalizing s with
  | nil => exact ⟨s, rfl, h⟩
  | cons input rest ih =>
    obtain ⟨hfirst, hrest⟩ := List.forall_mem_cons.mp hstep
    obtain ⟨s₁, hends, h₁⟩ := hfirst s h
    obtain ⟨s', hends', h'⟩ := ih hrest h₁
    refine ⟨s', ?_, h'⟩
    rw [List.mapM_cons, ends_bind_eq hends, ends_bind_eq hends']
    rfl

namespace Bench
open Program (ends)

variable {b b' : Bench} {address register : UInt8} {s : Slave} {payload : List UInt8}

/-! ## What stays -/

/-- Of the slave at the address at most `n` registers from `register` on are changed, and nothing of
the other slaves. -/
structure KeepsRest (b b' : Bench) (address register : UInt8) (n : Nat) : Prop where
  registers : ∀ i, (∀ k < n, register + UInt8.ofNat k ≠ i) →
    b'.register address i = b.register address i
  slaves : ∀ other, other ≠ address → b'.slaves.get other = b.slaves.get other

/-- A quiescent bench that differs from `b` in one slave only, which has these registers and takes part
without a stall. -/
structure Holding (b : Bench) (address : UInt8) (registers : ByteTable UInt8) (b' : Bench) : Prop where
  quiescent : Quiescent b'
  slave : ∃ s : Slave, b'.slaves = b.slaves.set address (some s) ∧ s.registers = registers ∧
    s.acknowledges ∧ s.stallAfter = none

theorem Holding.keepsRest (hs : b.slaves.get address = some s)
    (h : Holding b address (s.write (register :: payload)).registers b') :
    KeepsRest b b' address register payload.length := by
  obtain ⟨s', hslaves, hregisters, -⟩ := h.slave
  constructor
  · intro i hfree
    have hget : b'.slaves.get address = some s' := by rw [hslaves, ByteTable.get_set_self]
    rw [register_of_get hget, register_of_get hs, hregisters]
    refine Slave.get_storeAll_of_not_touches (s := s.aim register) ?_
    rintro ⟨k, hk, hi⟩
    exact hfree k hk hi
  · intro other hother
    rw [hslaves, ByteTable.get_set_of_ne _ _ hother.symm]

/-- The registers from one on, around the last one. -/
def found (registers : ByteTable UInt8) (register : UInt8) (n : Nat) : List UInt8 :=
  (List.range n).map fun i => registers.get (register + UInt8.ofNat i)

/-! ## Writes and reads -/

section
variable {m : Master} (hm : m.installed = true) (hconfig : m.bus.config = config)
  (ht : address ≤ 0x7f)
include hm hconfig ht

theorem holding_of_write (hb : Quiescent b) (hs : b.slaves.get address = some s)
    (ha : s.acknowledges) (hcalm : s.stallAfter = none) (bytes : List UInt8) :
    ∃ b', (m.write address bytes).ends respond b = (⟨.ok (), [.write address bytes]⟩, b') ∧
      Holding b address (s.write bytes).registers b' := by
  obtain ⟨b', hends, hquiescent, hslaves⟩ :=
    ends_write_whole hm hconfig hb ht hs ha (Slave.endures_of_none hcalm bytes.length)
  refine ⟨b', hends, hquiescent, s.write bytes, hslaves, rfl, ?_, ?_⟩
  · rw [Slave.acknowledges_write, ha]
  · rw [Slave.stallAfter_write, hcalm]

/-- A read takes one transaction; it finds the registers from its own on, and leaves them there. -/
theorem Holding.find {registers : ByteTable UInt8} {b₁ : Bench}
    (h : Holding b address registers b₁) (register : UInt8) (buffer : List UInt8) :
    ∃ b', (m.read address register buffer).ends respond b₁ =
        (⟨.ok (), registerRead address [register] (found registers register buffer.length)⟩, b') ∧
      Holding b address registers b' ∧ b'.tally.starts = b₁.tally.starts + 1 := by
  obtain ⟨s₁, hslaves, rfl, ha, hcalm⟩ := h.slave
  have hget : b₁.slaves.get address = some s₁ := by rw [hslaves, ByteTable.get_set_self]
  have hendures : s₁.Endures ([register].length + Slaves.fetched buffer.length) :=
    Slave.endures_of_none hcalm _
  obtain ⟨b', hends, hquiescent, hslaves', hstarts, -⟩ :=
    ends_transact_registerRead hm hconfig h.quiescent ht hget ha hendures
  refine ⟨b', (ends_writeRead hm b₁).trans (Master.ends_persist_done hends _ _),
    ⟨hquiescent, (s₁.write [register]).skip (Slaves.fetched buffer.length), ?_, rfl, ha, hcalm⟩,
    hstarts⟩
  rw [hslaves', hslaves, ByteTable.set_set]

/-- A read finds what was written from its register on, and leaves it there. -/
theorem Holding.read {b₁ : Bench} (hlen : payload.length ≤ 256)
    (h : Holding b address (s.write (register :: payload)).registers b₁) {buffer : List UInt8}
    (hbuffer : buffer.length = payload.length) :
    ∃ b', (m.read address register buffer).ends respond b₁ =
        (⟨.ok (), registerRead address [register] payload⟩, b') ∧
      Holding b address (s.write (register :: payload)).registers b' := by
  obtain ⟨b', hends, hholding, -⟩ := h.find hm hconfig ht register buffer
  have hfound : found (s.write (register :: payload)).registers register payload.length = payload :=
    Slave.window_write s register hlen
  rw [hbuffer, hfound] at hends
  exact ⟨b', hends, hholding⟩

/-- Programs that each come to the same as one read, one after another. -/
theorem Holding.reads {α : Type} {b₁ : Bench} (hlen : payload.length ≤ 256)
    (h : Holding b address (s.write (register :: payload)).registers b₁)
    (hs : b.slaves.get address = some s) {p : List UInt8 → Program α} {told : Answer Unit → α}
    (hp : ∀ {buffer answer b₂ b₃}, (m.read address register buffer).ends respond b₂ = (answer, b₃) →
      (p buffer).ends respond b₂ = (told answer, b₃))
    {buffers : List (List UInt8)} (hbuffers : ∀ buffer ∈ buffers, buffer.length = payload.length) :
    let o := (buffers.mapM p).run respond b₁
    o.value = (buffers.map fun _ => told ⟨.ok (), registerRead address [register] payload⟩) ∧
      KeepsRest b o.state address register payload.length := by
  intro o
  have hstep : ∀ buffer ∈ buffers, ∀ b₂,
      Holding b address (s.write (register :: payload)).registers b₂ →
      ∃ b₃, (p buffer).ends respond b₂ =
          (told ⟨.ok (), registerRead address [register] payload⟩, b₃) ∧
        Holding b address (s.write (register :: payload)).registers b₃ := by
    intro buffer hmem b₂ hb₂
    obtain ⟨b₃, hread, hb₃⟩ := hb₂.read hm hconfig ht hlen (hbuffers buffer hmem)
    exact ⟨b₃, hp hread, hb₃⟩
  obtain ⟨b', hreads, hb'⟩ := Program.ends_mapM_of_keeps hstep h
  obtain ⟨hvalue, hstate⟩ : o.value = _ ∧ o.state = b' := Program.run_of_ends hreads
  rw [hstate]
  exact ⟨hvalue, hb'.keepsRest hs⟩

end
end Bench

/-! ## The client of the companion chip -/

namespace Board.Companion
open Program

variable {σ : Type} {m : Master} {command : UInt8} {payload : List UInt8}

theorem ends_writeRegister (h : payload.length ≤ maxPayload) (hw : Hardware σ) (s : σ) :
    (writeRegister m command payload).ends hw s =
      let ended := (m.write companionAddress (command :: payload)).ends hw s
      (ended.1.result.mapError .bus, ended.2) := by
  rw [writeRegister, if_neg (Nat.not_lt_of_le h), ends_bind, ends_pure]

/-- A payload that does not fit is refused before anything is done. -/
theorem run_writeRegister_too_large (h : maxPayload < payload.length) (hw : Hardware σ) (s : σ) :
    (writeRegister m command payload).run hw s =
      ⟨.error (.payloadTooLarge payload.length), s, [], []⟩ := by
  rw [writeRegister, if_pos h, run_pure]

/-- What the client tells of a read. -/
def told (answer : Answer Unit) : Except DeviceError Unit × List UInt8 :=
  (answer.result.mapError .bus, answer.buffer)

theorem ends_readRegister {hw : Hardware σ} {s s' : σ} {buffer : List UInt8} {answer : Answer Unit}
    (h : (m.read companionAddress command buffer).ends hw s = (answer, s')) :
    (readRegister m command buffer).ends hw s = (told answer, s') := by
  rw [readRegister, ends_bind_eq h, ends_pure, told]

end Board.Companion

open Board (Companion) in
/-- On a quiescent bench, a write of at most 256 registers of a slave that acknowledges and does not
stall succeeds exactly if the master is installed and the address is in range. Reads of as many registers
from the same one on, however often, then succeed and find what was written; the slave's other registers
and the other slaves are as before. The client of the companion chip inherits this for payloads of up to
20 bytes. It refuses a longer payload on every board without any access. -/
theorem registers_round_trip {m : Master} (hconfig : m.bus.config = Bench.config) {b : Bench}
    (hb : b.Quiescent) {address : UInt8} {s : Bench.Slave} (hs : b.slaves.get address = some s)
    (ha : s.acknowledges) (hcalm : s.stallAfter = none) :
    (∀ register payload, payload.length ≤ 256 →
      let o := (m.write address (register :: payload)).run Bench.respond b
      (o.value.result = .ok () ↔ m.installed = true ∧ address ≤ 0x7f) ∧
        (o.value.result = .ok () → ∀ buffers : List (List UInt8),
          (∀ buffer ∈ buffers, buffer.length = payload.length) →
          let o' := (buffers.mapM (m.read address register)).run Bench.respond o.state
          o'.value = (buffers.map fun _ =>
              ⟨.ok (), [.write address [register], .read address payload]⟩) ∧
            b.KeepsRest o'.state address register payload.length)) ∧
      (address = Board.companionAddress → ∀ command payload, payload.length ≤ 20 →
        let o := (Companion.writeRegister m command payload).run Bench.respond b
        (o.value = .ok () ↔ m.installed = true) ∧
          (o.value = .ok () → ∀ buffers : List (List UInt8),
            (∀ buffer ∈ buffers, buffer.length = payload.length) →
            let o' := (buffers.mapM (Companion.readRegister m command)).run Bench.respond o.state
            o'.value = (buffers.map fun _ => (.ok (), payload)) ∧
              b.KeepsRest o'.state address command payload.length)) ∧
      ∀ command payload, 20 < payload.length → ∀ {σ : Type} (hw : Hardware σ) (state : σ),
        (Companion.writeRegister m command payload).run hw state =
          ⟨.error (.payloadTooLarge payload.length), state, [], []⟩ := by
  refine ⟨?_, ?_, ?_⟩
  · intro register payload hlen o
    by_cases h : m.installed = true ∧ address ≤ 0x7f
    · obtain ⟨b₁, hwrite, hholding⟩ :=
        Bench.holding_of_write h.1 hconfig h.2 hb hs ha hcalm (register :: payload)
      obtain ⟨hvalue, hstate⟩ : o.value = _ ∧ o.state = b₁ := Program.run_of_ends hwrite
      rw [hvalue, hstate]
      exact ⟨iff_of_true rfl h, fun _ _ => hholding.reads h.1 hconfig h.2 hlen hs id⟩
    · have hrefused : o.value.result ≠ .ok () := Master.ends_write_refused Bench.respond b h
      exact ⟨iff_of_false hrefused h, fun hok => absurd hok hrefused⟩
  · rintro rfl command payload hfits o
    have hsent : (Companion.writeRegister m command payload).ends Bench.respond b = _ :=
      Companion.ends_writeRegister hfits Bench.respond b
    have hrange : Board.companionAddress ≤ 0x7f := by decide
    by_cases hm : m.installed = true
    · obtain ⟨b₁, hwrite, hholding⟩ :=
        Bench.holding_of_write hm hconfig hrange hb hs ha hcalm (command :: payload)
      rw [hwrite] at hsent
      obtain ⟨hvalue, hstate⟩ : o.value = .ok () ∧ o.state = b₁ := Program.run_of_ends hsent
      have hlen : payload.length ≤ 256 := Nat.le_trans hfits (by decide)
      rw [hvalue, hstate]
      exact ⟨iff_of_true rfl hm, fun _ _ =>
        hholding.reads hm hconfig hrange hlen hs Companion.ends_readRegister⟩
    · have hrefused : o.value ≠ .ok () := by
        intro hok
        have hvalue : o.value = _ := (Program.run_of_ends hsent).1
        cases hresult : ((m.write Board.companionAddress (command :: payload)).ends
            Bench.respond b).1.result with
        | ok _ => exact Master.ends_write_refused Bench.respond b (fun h => hm h.1) hresult
        | error error =>
          rw [hvalue, hresult] at hok
          cases hok
      exact ⟨iff_of_false hrefused hm, fun hok => absurd hok hrefused⟩
  · intro command payload hlong σ hw state
    exact Companion.run_writeRegister_too_large hlong hw state

/-- A bench with a register file in the place of the companion chip. -/
def companionBench : Bench := ({} : Bench).attach Board.companionAddress (.registers [(16, 5)])

open Board (Companion) in
/-- The last register and, around it, the first one are written and read back twice. -/
theorem registers_round_trip_on_companionBench :
    companionBench.Quiescent ∧
      (let o := (benchMaster.write 0x66 [255, 7, 8]).run Bench.respond companionBench
      o.value.result = .ok () ∧
        ((([[0, 0], [9, 9]] : List (List UInt8)).mapM (benchMaster.read 0x66 255)).run
          Bench.respond o.state).value.map Answer.buffer = [[7, 8], [7, 8]]) ∧
      (let o := (Companion.writeRegister benchMaster 0x25 [1, 2, 3]).run Bench.respond companionBench
      o.value = .ok () ∧
        (([[0, 0, 0]].mapM (Companion.readRegister benchMaster 0x25)).run
          Bench.respond o.state).value = [(.ok (), [1, 2, 3])]) ∧
      ((Companion.writeRegister benchMaster 0x25 (List.replicate 21 0)).run
        Bench.respond companionBench).value = .error (.payloadTooLarge 21) := by
  have hb : companionBench.Quiescent :=
    ⟨Bench.coherent_empty.attach _ _, rfl, rfl, rfl, rfl, rfl, rfl⟩
  have hget : companionBench.slaves.get Board.companionAddress =
      some (.ofDevice (.registers [(16, 5)])) := ByteTable.get_set_self _ _ _
  obtain ⟨hmaster, hclient, hlong⟩ :=
    registers_round_trip (m := benchMaster) rfl hb hget rfl rfl
  obtain ⟨hwrites, hreads⟩ := hmaster 255 [7, 8] (by decide)
  obtain ⟨hsends, hfetches⟩ := hclient rfl 0x25 [1, 2, 3] (by decide)
  have hwrote := hwrites.mpr ⟨rfl, by decide⟩
  have hsent := hsends.mpr rfl
  have hanswers := (hreads hwrote [[0, 0], [9, 9]] (by decide)).1
  refine ⟨hb, ⟨hwrote, ?_⟩, ⟨hsent, (hfetches hsent [[0, 0, 0]] (by decide)).1⟩, ?_⟩
  · exact congrArg (List.map Answer.buffer) hanswers
  · rw [hlong 0x25 (List.replicate 21 0) (by decide)]
    rfl

end TwoWire
