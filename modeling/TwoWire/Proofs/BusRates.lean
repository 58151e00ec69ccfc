import TwoWire.BusConfig
/-!
# Rates that the divider gives

The divider counts source clocks for half a period of the bus clock. It is rounded down, so a period
can come out shorter than the wanted one, and only its low eight bits are programmed, so a source too
fast for them makes the period wrap around. Here is exactly where the supported maximum is exceeded,
and where neither can do harm.
-/
namespace TwoWire.BusConfig

variable (c : BusConfig)

/-- The least rate above the supported maximum. -/
def tooFast : Nat := Speed.fast.rate.toNat + 1

/-- Source clocks in half a period of the wanted rate, rounded down. -/
def halfPeriod : Nat := c.sourceRate.toNat / (2 * c.effectiveRate.toNat)

/-- Source clocks in half a period of the rate that the programmed divider gives. -/
def programmedHalf : Nat := (c.clockControl &&& 0xff).toNat + 3

/-! ## The words in numbers -/

theorem standard_le_effectiveRate : Speed.standard.rate.toNat ≤ c.effectiveRate.toNat := by
  unfold effectiveRate
  split
  next h => exact UInt32.le_iff_toNat_le.mp h.1
  next => exact Nat.le_refl _

theorem effectiveRate_pos : 0 < 2 * c.effectiveRate.toNat :=
  Nat.mul_pos Nat.two_pos (Nat.lt_of_lt_of_le (by decide) c.standard_le_effectiveRate)

theorem effectiveRate_lt_tooFast : c.effectiveRate.toNat < tooFast := by
  unfold effectiveRate
  split
  next h => exact Nat.lt_succ_of_le (UInt32.le_iff_toNat_le.mp h.2)
  next => decide

theorem divider_toNat : c.divider.toNat = c.halfPeriod - 3 := by
  have hhalf : (c.sourceRate / c.effectiveRate / 2).toNat = c.halfPeriod := by
    rw [UInt32.toNat_div, UInt32.toNat_div, Nat.div_div_eq_div_mul, Nat.mul_comm, halfPeriod]
    rfl
  simp only [divider]
  split
  next hle =>
    rw [UInt32.le_iff_toNat_le, hhalf] at hle
    exact (Nat.sub_eq_zero_of_le hle).symm
  next hlt =>
    rw [UInt32.toNat_sub_of_le _ _ (UInt32.le_of_lt (UInt32.not_le.mp hlt)), hhalf]
    rfl

theorem toNat_and_field (word : UInt32) : (word &&& 0xff).toNat = word.toNat % 256 :=
  (UInt32.toNat_and word 0xff).trans (Nat.and_two_pow_sub_one_eq_mod word.toNat 8)

/-- The bits above the divider are no part of it. -/
theorem programmedHalf_eq : c.programmedHalf = (c.halfPeriod - 3) % 256 + 3 := by
  rw [programmedHalf, toNat_and_field, clockControl, UInt32.toNat_or, toNat_and_field, divider_toNat]
  congr 1
  calc (0x300 ||| (c.halfPeriod - 3) % 256) % 2 ^ 8
      = 0x300 % 2 ^ 8 ||| (c.halfPeriod - 3) % 256 % 2 ^ 8 := Nat.or_mod_two_pow
    _ = (c.halfPeriod - 3) % 256 := by rw [Nat.mod_mod, Nat.zero_or]

theorem programmedHalf_le : c.programmedHalf ≤ 258 := by
  rw [programmedHalf_eq]
  omega

theorem programmedRate_toNat :
    c.programmedRate.toNat = c.sourceRate.toNat / (2 * c.programmedHalf) := by
  have hhalf : (2 * ((c.clockControl &&& 0xff) + 3)).toNat = 2 * c.programmedHalf := by
    have := c.programmedHalf_le
    rw [programmedHalf] at this ⊢
    simp only [UInt32.toNat_mul, UInt32.toNat_add, UInt32.reduceToNat]
    omega
  rw [programmedRate, resultingRate, UInt32.toNat_div, hhalf]

/-! ## Too fast -/

/-- A rate is too fast if half its period is too short. -/
theorem fast_lt_iff :
    Speed.fast.rate < c.programmedRate ↔ 2 * tooFast * c.programmedHalf ≤ c.sourceRate.toNat := by
  have hpos : 0 < 2 * c.programmedHalf := by
    rw [programmedHalf_eq]
    omega
  rw [UInt32.lt_iff_toNat_lt, programmedRate_toNat, Nat.lt_iff_add_one_le, ← tooFast,
    Nat.le_div_iff_mul_le hpos, Nat.mul_left_comm, Nat.mul_assoc]

variable {c}

/-- A divider that fits its eight bits is programmed as it is. -/
theorem programmedHalf_of_le (h : c.halfPeriod ≤ 258) : c.programmedHalf = max c.halfPeriod 3 := by
  rw [programmedHalf_eq]
  omega

/-- A source that is slow already for the wanted rate is slow enough for the maximum. -/
theorem source_lt_of_halfPeriod_lt (h : c.halfPeriod < 3) :
    c.sourceRate.toNat < 2 * tooFast * 3 := by
  have hwanted := c.effectiveRate_lt_tooFast
  calc c.sourceRate.toNat < 3 * (2 * c.effectiveRate.toNat) :=
        (Nat.div_lt_iff_lt_mul c.effectiveRate_pos).mp h
    _ ≤ 2 * tooFast * 3 := by omega

/-- Half a period is too short exactly if what the division drops makes up for the distance between
the wanted rate and the maximum. -/
theorem halfPeriod_short_iff :
    2 * tooFast * c.halfPeriod ≤ c.sourceRate.toNat ↔
      c.halfPeriod * (2 * tooFast - 2 * c.effectiveRate.toNat) ≤
        c.sourceRate.toNat % (2 * c.effectiveRate.toNat) := by
  have hdropped : 2 * c.effectiveRate.toNat * c.halfPeriod +
      c.sourceRate.toNat % (2 * c.effectiveRate.toNat) = c.sourceRate.toNat := Nat.div_add_mod _ _
  rw [Nat.mul_sub, Nat.sub_le_iff_le_add', Nat.mul_comm c.halfPeriod, Nat.mul_comm c.halfPeriod,
    hdropped]

/-- Far enough below the maximum, the division cannot drop as much. -/
theorem not_halfPeriod_short (hhalf : 3 ≤ c.halfPeriod) (hwanted : c.effectiveRate.toNat ≤ 300000) :
    ¬ 2 * tooFast * c.halfPeriod ≤ c.sourceRate.toNat := by
  have hfast : tooFast = 400001 := rfl
  rw [halfPeriod_short_iff, Nat.not_le]
  calc c.sourceRate.toNat % (2 * c.effectiveRate.toNat)
      < 2 * c.effectiveRate.toNat := Nat.mod_lt _ c.effectiveRate_pos
    _ ≤ 3 * (2 * tooFast - 2 * c.effectiveRate.toNat) := by omega
    _ ≤ c.halfPeriod * (2 * tooFast - 2 * c.effectiveRate.toNat) := Nat.mul_le_mul_right _ hhalf

/-- A source that comes in whole periods of the maximum has as many source clocks in half a period
of any wanted rate. -/
theorem source_lt_of_dvd {half : Nat} (hpos : 0 < half) (hhalf : c.halfPeriod ≤ half)
    (hsource : 2 * Speed.fast.rate.toNat ∣ c.sourceRate.toNat) :
    c.sourceRate.toNat < 2 * tooFast * half := by
  have hwanted := c.effectiveRate_lt_tooFast
  obtain ⟨clocks, hclocks⟩ := hsource
  have hle : clocks ≤ c.halfPeriod := by
    rw [halfPeriod, Nat.le_div_iff_mul_le c.effectiveRate_pos, hclocks, Nat.mul_comm]
    exact Nat.mul_le_mul_right _ (Nat.mul_le_mul_left 2 (Nat.le_of_lt_succ hwanted))
  calc c.sourceRate.toNat = 2 * Speed.fast.rate.toNat * clocks := hclocks
    _ ≤ 2 * Speed.fast.rate.toNat * half := Nat.mul_le_mul_left _ (Nat.le_trans hle hhalf)
    _ < 2 * tooFast * half := Nat.mul_lt_mul_of_pos_right (by decide) hpos

/-- Where the divider fits its field, the maximum is kept up to 300 kHz, and by a source that comes
in whole periods of the maximum. -/
theorem programmedRate_le_fast (hfits : c.halfPeriod ≤ 258)
    (hspared : c.effectiveRate.toNat ≤ 300000 ∨ 2 * Speed.fast.rate.toNat ∣ c.sourceRate.toNat) :
    c.programmedRate ≤ Speed.fast.rate := by
  rw [← UInt32.not_lt, fast_lt_iff, programmedHalf_of_le hfits]
  rcases Nat.lt_or_ge c.halfPeriod 3 with hslow | hhalf
  · rw [Nat.max_eq_right (Nat.le_of_lt hslow)]
    exact Nat.not_le_of_lt (source_lt_of_halfPeriod_lt hslow)
  · rw [Nat.max_eq_left hhalf]
    rcases hspared with hwanted | hsource
    · exact not_halfPeriod_short hhalf hwanted
    · exact Nat.not_le_of_lt
        (source_lt_of_dvd (Nat.lt_of_lt_of_le (by decide) hhalf) (Nat.le_refl _) hsource)

/-- With the source that a configuration has by default, the maximum is always kept. -/
theorem programmedRate_le_fast_of_default (hsource : c.sourceRate = 19200000) :
    c.programmedRate ≤ Speed.fast.rate := by
  have hstandard : 100000 ≤ c.effectiveRate.toNat := c.standard_le_effectiveRate
  have hsource' : c.sourceRate.toNat = 19200000 := by rw [hsource]; rfl
  refine programmedRate_le_fast ?_ (.inr ?_)
  · rw [halfPeriod, hsource']
    exact Nat.div_le_of_le_mul (by omega)
  · rw [hsource']
    decide

/-- The exact condition under which the programmed rate exceeds the supported maximum. If the divider
fits its field, the division must drop enough; if it does not, what the field keeps of it decides.
Besides, a divider that fits keeps the maximum up to 300 kHz, and with a source that comes in whole
periods of the maximum. -/
theorem overclocks_iff (c : BusConfig) :
    (Speed.fast.rate < c.programmedRate ↔
      if c.halfPeriod ≤ 258 then
        3 ≤ c.halfPeriod ∧ c.halfPeriod * (2 * tooFast - 2 * c.effectiveRate.toNat) ≤
          c.sourceRate.toNat % (2 * c.effectiveRate.toNat)
      else 2 * tooFast * ((c.halfPeriod - 3) % 256 + 3) ≤ c.sourceRate.toNat) ∧
    (c.halfPeriod ≤ 258 →
      c.effectiveRate.toNat ≤ 300000 ∨ 2 * Speed.fast.rate.toNat ∣ c.sourceRate.toNat →
      c.programmedRate ≤ Speed.fast.rate) := by
  refine ⟨?_, programmedRate_le_fast⟩
  rw [fast_lt_iff]
  split
  next hfits =>
    rw [programmedHalf_of_le hfits, ← halfPeriod_short_iff]
    rcases Nat.lt_or_ge c.halfPeriod 3 with hslow | hhalf
    · rw [Nat.max_eq_right (Nat.le_of_lt hslow)]
      exact iff_of_false (Nat.not_le_of_lt (source_lt_of_halfPeriod_lt hslow))
        fun h => Nat.not_le_of_lt hslow h.1
    · rw [Nat.max_eq_left hhalf]
      exact (and_iff_right hhalf).symm
  next => rw [programmedHalf_eq]

/-- At 60 MHz the divider for 100 kHz is 297, of which 41 is left: far more than the maximum. -/
theorem overclocked_by_wrapped_divider :
    let c : BusConfig := { base := 0, clock := 1, line := 2, sourceRate := 60000000 }
    c.effectiveRate = 100000 ∧ c.clockControl = 0x329 ∧ c.programmedRate = 681818 ∧
      ¬ c.programmedRate ≤ Speed.fast.rate := by
  decide

/-- The division alone does harm, too: 33 clocks of 27 MHz are short of half a period of 400 kHz. -/
example :
    ({ base := 0, clock := 1, line := 2, busRate := 400000, sourceRate := 27000000 } :
      BusConfig).programmedRate = 409090 := by
  decide

end TwoWire.BusConfig
