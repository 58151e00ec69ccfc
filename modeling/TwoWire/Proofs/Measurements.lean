import TwoWire.Board.Gauge
import TwoWire.Proofs.RoundTrip
/-!
# What the gauge measures

A measurement reads two registers, each in a transaction of its own, and scales the count that their
top bits hold. Machine words are wide enough for that: every product fits, and a resistor that is cut
to the signed range is one that rounds every current to zero anyway. So a measurement is what the
integers make of the registers.
-/
namespace TwoWire

namespace Board.Gauge

/-- The count in the top bits of a pair of bytes. -/
def count (width : Nat) (high low : UInt8) : BitVec width :=
  (high.toBitVec ++ low.toBitVec).extractLsb' (16 - width) width

/-! ## Words in numbers -/

theorem toBitVec_pair (high low : UInt8) :
    (pair high low).toBitVec = (high.toBitVec ++ low.toBitVec : BitVec 16) := by
  simp only [pair, UInt16.toBitVec_or, UInt16.toBitVec_shiftLeft, UInt8.toBitVec_toUInt16]
  ext i hi
  simp
  grind

/-- The bits that an arithmetic shift leaves over are the top ones. -/
theorem signExtend_extractLsb' {w k : Nat} (hk : k < w) (x : BitVec w) :
    (x.extractLsb' k (w - k)).signExtend w = x.sshiftRight k := by
  ext i hi
  simp [BitVec.getElem_signExtend, BitVec.getElem_sshiftRight, BitVec.msb_eq_getLsbD_last]
  grind

theorem toNat_pair_shiftRight (high low : UInt8) :
    (pair high low >>> 4).toNat = (count 12 high low).toNat := by
  have hlt : (pair high low).toNat >>> 4 < 2 ^ 12 := by
    rw [Nat.shiftRight_eq_div_pow]
    have := (pair high low).toNat_lt
    omega
  rw [count, BitVec.extractLsb'_toNat, ← toBitVec_pair]
  exact (Nat.mod_eq_of_lt hlt).symm

theorem toInt_sshiftRight_pair {k : Nat} (hk : k < 16) (high low : UInt8) :
    ((pair high low).toBitVec.sshiftRight k).toInt = (count (16 - k) high low).toInt := by
  rw [toBitVec_pair, ← signExtend_extractLsb' hk, BitVec.toInt_signExtend_of_le (Nat.sub_le 16 k),
    count, Nat.sub_sub_self (Nat.le_of_lt hk)]

/-- A scaled count that fits into a signed word is the product. -/
theorem toInt_scaled {counted : Int16} {scale : Int32} {c n : Int} (hcount : counted.toInt = c)
    (hscale : scale.toInt = n) (hlow : -2147483648 ≤ c * n) (hhigh : c * n < 2147483648) :
    (counted.toInt32 * scale).toInt = c * n := by
  rw [Int32.toInt_mul, Int16.toInt_toInt32, hcount, hscale]
  apply Int.bmod_eq_of_le
  · exact hlow
  · exact hhigh

theorem toInt_resistance (sense : UInt32) :
    (resistance sense).toInt = min sense.toNat 2147483647 := by
  unfold resistance
  split
  next hle =>
    have hnat : sense.toNat ≤ 2147483647 := UInt32.le_iff_toNat_le.mp hle
    rw [Nat.min_eq_left hnat]
    exact BitVec.toInt_eq_toNat_of_lt (show 2 * sense.toNat < 2 ^ 32 by omega)
  next hlt =>
    have hnat : 2147483647 < sense.toNat := UInt32.lt_iff_toNat_lt.mp (UInt32.not_le.mp hlt)
    rw [Nat.min_eq_right (Nat.le_of_lt hnat)]
    rfl

/-- Any divisor that is larger than the dividend gives zero. -/
theorem tdiv_eq_zero {a : Int} {n : Nat} (hlow : -n < a) (hhigh : a < n) : a.tdiv n = 0 := by
  rw [← Int.natAbs_eq_zero, Int.natAbs_tdiv, Int.natAbs_natCast]
  exact Nat.div_eq_of_lt (by omega)

/-- So it does not matter where such a divisor is cut. -/
theorem tdiv_min {a : Int} {limit : Nat} (n : Nat) (hlow : -limit < a) (hhigh : a < limit) :
    a.tdiv (min n limit : Nat) = a.tdiv n := by
  rcases Nat.le_total n limit with hle | hle
  · rw [Nat.min_eq_left hle]
  · rw [Nat.min_eq_right hle, tdiv_eq_zero hlow hhigh, tdiv_eq_zero (by omega) (by omega)]

/-! ## Measured values -/

section
variable (high low : UInt8)

theorem voltage_product :
    ((pair high low >>> 4).toUInt32 * 2440).toNat = (count 12 high low).toNat * 2440 := by
  have hscale : (2440 : UInt32).toNat = 2440 := rfl
  have hlt := (count 12 high low).isLt
  rw [UInt32.toNat_mul, UInt16.toNat_toUInt32, toNat_pair_shiftRight, hscale]
  exact Nat.mod_eq_of_lt (by omega)

theorem current_product :
    (((pair high low).toInt16 >>> 2).toInt32 * 645).toInt = (count 14 high low).toInt * 645 := by
  have hcount : ((pair high low).toInt16 >>> 2).toInt = (count 14 high low).toInt :=
    toInt_sshiftRight_pair (by decide) high low
  have hlow := (count 14 high low).le_toInt
  have hhigh := (count 14 high low).toInt_lt
  exact toInt_scaled hcount rfl (by omega) (by omega)

theorem temperature_product :
    (((pair high low).toInt16 >>> 5).toInt32 * 125).toInt = (count 11 high low).toInt * 125 := by
  have hcount : ((pair high low).toInt16 >>> 5).toInt = (count 11 high low).toInt :=
    toInt_sshiftRight_pair (by decide) high low
  have hlow := (count 11 high low).le_toInt
  have hhigh := (count 11 high low).toInt_lt
  exact toInt_scaled hcount rfl (by omega) (by omega)

theorem millivolts_eq : millivolts high low = (count 12 high low).toNat * 2440 / 1000 := by
  rw [millivolts, UInt32.toNat_div, voltage_product]
  rfl

theorem milliamperes_eq (sense : UInt32) :
    milliamperes sense high low = ((count 14 high low).toInt * 645).tdiv sense.toNat := by
  have hlow := (count 14 high low).le_toInt
  have hhigh := (count 14 high low).toInt_lt
  have hne : resistance sense ≠ -1 := by
    intro h
    have hminus : (-1 : Int32).toInt = -1 := rfl
    have hnat := toInt_resistance sense
    rw [h, hminus] at hnat
    omega
  rw [milliamperes, Int32.toInt_div_of_ne_right _ _ hne, toInt_resistance, current_product]
  exact tdiv_min sense.toNat (by omega) (by omega)

theorem millidegrees_eq : millidegrees high low = 125 * (count 11 high low).toInt := by
  rw [millidegrees, temperature_product, Int.mul_comm]

end

end Board.Gauge

/-! ## The slave in the place of the gauge -/

namespace Bench

variable {b : Bench} {address : UInt8}

theorem found_one (registers : ByteTable UInt8) (register : UInt8) :
    found registers register 1 = [registers.get register] := by
  have hregister : register + UInt8.ofNat 0 = register := UInt8.add_zero register
  change [registers.get (register + UInt8.ofNat 0)] = _
  rw [hregister]

/-- A bench holds what its slave holds. -/
theorem Quiescent.holding {s : Slave} (hb : Quiescent b) (hs : b.slaves.get address = some s)
    (ha : s.acknowledges) (hcalm : s.stallAfter = none) : Holding b address s.registers b := by
  refine ⟨hb, s, ?_, rfl, ha, hcalm⟩
  rw [← hs, ByteTable.set_get]

/-- As long as the registers are those of one of its slaves, a bench shows the same registers. -/
theorem Holding.register_eq {s : Slave} (hs : b.slaves.get address = some s) {b' : Bench}
    (h : Holding b address s.registers b') (other i : UInt8) :
    b'.register other i = b.register other i := by
  obtain ⟨s', hslaves, hregisters, -⟩ := h.slave
  by_cases hother : other = address
  · subst hother
    have hget : b'.slaves.get other = some s' := by rw [hslaves, ByteTable.get_set_self]
    rw [register_of_get hget, register_of_get hs, hregisters]
  · have hget : b'.slaves.get other = b.slaves.get other := by
      rw [hslaves, ByteTable.get_set_of_ne _ _ (Ne.symm hother)]
    unfold Bench.register slave?
    rw [hget]

end Bench

/-! ## Measurements -/

namespace Board.Gauge
open Program

/-- A measurement that gives `value` consists of one read for each register of a pair, each of a
single byte and in a single transaction, and leaves the registers of all slaves as they are. -/
structure Measures {α : Type} (g : Gauge) (m : Master) (b : Bench) (first : UInt8)
    (measurement : Program (Except DeviceError α)) (value : α) : Prop where
  value : (measurement.run Bench.respond b).value = .ok value
  reads :
    let high := (m.read g.address first [0]).run Bench.respond b
    let low := (m.read g.address (first + 1) [0]).run Bench.respond high.state
    high.value = ⟨.ok (), Bench.registerRead g.address [first] [b.register g.address first]⟩ ∧
      low.value =
        ⟨.ok (), Bench.registerRead g.address [first + 1] [b.register g.address (first + 1)]⟩ ∧
      (measurement.run Bench.respond b).trace = high.trace ++ low.trace
  starts : (measurement.run Bench.respond b).state.tally.starts = b.tally.starts + 2
  registers : ∀ address i,
    (measurement.run Bench.respond b).state.register address i = b.register address i
  quiescent : (measurement.run Bench.respond b).state.Quiescent

section
variable {α σ : Type} {hw : Hardware σ} {g : Gauge} {m : Master} {s : σ}

theorem run_readRegister {register byte : UInt8}
    (h : ((m.read g.address register [0]).run hw s).value =
      ⟨.ok (), Bench.registerRead g.address [register] [byte]⟩) :
    (g.readRegister m register).run hw s =
      let read := (m.read g.address register [0]).run hw s
      ⟨.ok byte, read.state, read.trace, read.log⟩ := by
  rw [readRegister, run_bind, h]
  change Outcome.andThen _ ((pure (.ok byte) : Program (Except DeviceError UInt8)).run hw _) = _
  rw [run_pure, Outcome.andThen, List.append_nil, List.append_nil]

/-- If both reads succeed, the measurement consists of them. -/
theorem run_measure {first high low : UInt8} (convert : UInt8 → UInt8 → α)
    (hhigh : ((m.read g.address first [0]).run hw s).value =
      ⟨.ok (), Bench.registerRead g.address [first] [high]⟩)
    (hlow : ((m.read g.address (first + 1) [0]).run hw
        ((m.read g.address first [0]).run hw s).state).value =
      ⟨.ok (), Bench.registerRead g.address [first + 1] [low]⟩) :
    (g.measure m first convert).run hw s =
      let one := (m.read g.address first [0]).run hw s
      let other := (m.read g.address (first + 1) [0]).run hw one.state
      ⟨.ok (convert high low), other.state, one.trace ++ other.trace, one.log ++ other.log⟩ := by
  rw [measure, run_bind, run_readRegister hhigh]
  simp only [run_bind, run_readRegister hlow]
  simp [Outcome.andThen, Except.map]

end

/-- On a quiescent bench with a slave in the place of the gauge, every measurement converts what the
slave holds. -/
theorem measures_measure {α : Type} {m : Master} (hm : m.installed = true)
    (hconfig : m.bus.config = Bench.config) {b : Bench} (hb : b.Quiescent) {g : Gauge}
    (ht : g.address ≤ 0x7f) {s : Bench.Slave} (hs : b.slaves.get g.address = some s)
    (ha : s.acknowledges) (hcalm : s.stallAfter = none) (first : UInt8)
    (convert : UInt8 → UInt8 → α) :
    g.Measures m b first (g.measure m first convert)
      (convert (b.register g.address first) (b.register g.address (first + 1))) := by
  have hregister (i : UInt8) : s.registers.get i = b.register g.address i :=
    (Bench.register_of_get hs i).symm
  obtain ⟨b₁, hone, hholding, hstarts₁⟩ :=
    (hb.holding hs ha hcalm).find hm hconfig ht first [0]
  obtain ⟨b₂, hother, hholding', hstarts₂⟩ := hholding.find hm hconfig ht (first + 1) [0]
  rw [List.length_singleton, Bench.found_one, hregister] at hone hother
  obtain ⟨hhigh, hstate₁⟩ := Program.run_of_ends hone
  rw [← hstate₁] at hother
  obtain ⟨hlow, hstate₂⟩ := Program.run_of_ends hother
  have hrun := run_measure convert hhigh hlow
  have hstate : ((g.measure m first convert).run Bench.respond b).state = b₂ := by rw [hrun, hstate₂]
  constructor
  · rw [hrun]
  · refine ⟨hhigh, hlow, ?_⟩
    rw [hrun]
  · rw [hstate, hstarts₂, hstarts₁]
  · rw [hstate]
    exact hholding'.register_eq hs
  · rw [hstate]
    exact hholding'.quiescent

/-- Every measurement of the gauge is exact: it is what the integers make of the twelve, fourteen or
eleven top bits of its register pair, whatever the registers hold and whatever the resistor is. It
takes two reads of one byte each, and changes no register. No product on the way overflows its word. -/
theorem measures_exactly {m : Master} (hm : m.installed = true)
    (hconfig : m.bus.config = Bench.config) {b : Bench} (hb : b.Quiescent) {g : Gauge}
    (ht : g.address ≤ 0x7f) {s : Bench.Slave} (hs : b.slaves.get g.address = some s)
    (ha : s.acknowledges) (hcalm : s.stallAfter = none) :
    let held := b.register g.address
    g.Measures m b 0x0C (g.voltage m) ((count 12 (held 0x0C) (held 0x0D)).toNat * 2440 / 1000) ∧
    (∀ sense : UInt32, sense ≠ 0 → g.Measures m b 0x0E (g.current m sense)
      (((count 14 (held 0x0E) (held 0x0F)).toInt * 645).tdiv sense.toNat)) ∧
    g.Measures m b 0x0A (g.temperature m) (125 * (count 11 (held 0x0A) (held 0x0B)).toInt) ∧
    ∀ high low,
      ((pair high low >>> 4).toUInt32 * 2440).toNat = (count 12 high low).toNat * 2440 ∧
      (((pair high low).toInt16 >>> 2).toInt32 * 645).toInt = (count 14 high low).toInt * 645 ∧
      (((pair high low).toInt16 >>> 5).toInt32 * 125).toInt = (count 11 high low).toInt * 125 := by
  intro held
  refine ⟨?_, fun sense _ => ?_, ?_, fun high low =>
    ⟨voltage_product high low, current_product high low, temperature_product high low⟩⟩
  · rw [← millivolts_eq]
    exact measures_measure hm hconfig hb ht hs ha hcalm voltageRegister millivolts
  · rw [← milliamperes_eq]
    exact measures_measure hm hconfig hb ht hs ha hcalm currentRegister (milliamperes sense)
  · rw [← millidegrees_eq]
    exact measures_measure hm hconfig hb ht hs ha hcalm temperatureRegister millidegrees

/-- A bench with a register file in the place of the gauge: 1720 counts of voltage, -400 of current and
-1 of temperature. -/
def gaugeBench : Bench :=
  ({} : Bench).attach gaugeAddress
    (.registers [(0x0A, 0xff), (0x0B, 0xe0), (0x0C, 0x6b), (0x0D, 0x80), (0x0E, 0xf9), (0x0F, 0xc0)])

theorem measures_exactly_on_gaugeBench :
    gaugeBench.Quiescent ∧
      ((({} : Gauge).voltage benchMaster).run Bench.respond gaugeBench).value = .ok 4196 ∧
      ((({} : Gauge).current benchMaster 15).run Bench.respond gaugeBench).value = .ok (-17200) ∧
      ((({} : Gauge).current benchMaster 0xffffffff).run Bench.respond gaugeBench).value = .ok 0 ∧
      ((({} : Gauge).temperature benchMaster).run Bench.respond gaugeBench).value = .ok (-125) := by
  have hb : gaugeBench.Quiescent :=
    ⟨Bench.coherent_empty.attach _ _, rfl, rfl, rfl, rfl, rfl, rfl⟩
  have hget : gaugeBench.slaves.get gaugeAddress = some (.ofDevice (.registers [(0x0A, 0xff),
      (0x0B, 0xe0), (0x0C, 0x6b), (0x0D, 0x80), (0x0E, 0xf9), (0x0F, 0xc0)])) :=
    ByteTable.get_set_self _ _ _
  obtain ⟨hvoltage, hcurrent, htemperature, -⟩ :=
    measures_exactly (m := benchMaster) (g := {}) rfl rfl hb (by decide) hget rfl rfl
  refine ⟨hb, hvoltage.value.trans ?_, (hcurrent 15 (by decide)).value.trans ?_,
    (hcurrent 0xffffffff (by decide)).value.trans ?_, htemperature.value.trans ?_⟩
  · exact congrArg Except.ok (by decide)
  · exact congrArg Except.ok (by decide)
  · exact congrArg Except.ok (by decide)
  · exact congrArg Except.ok (by decide)

end Board.Gauge
end TwoWire
