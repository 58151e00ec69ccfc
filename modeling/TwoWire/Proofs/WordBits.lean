import TwoWire.Controller
/-!
# Reading queue words back

The controller takes a word of the write queue apart by its bits. What it finds is what the word was
made of, as long as an address has no more than seven bits.
-/
namespace TwoWire.FifoWord

/-- The stop condition follows the word. -/
def isLast : FifoWord → Bool
  | address _ _ last => last
  | data _ last => last
  | stop => true

/-- What holds of the numbers below 256 holds of every byte. -/
theorem forall_byte {p : UInt8 → Prop} (h : ∀ n < 256, p (UInt8.ofNat n)) (byte : UInt8) :
    p byte := by
  have hb := h byte.toNat byte.toNat_lt
  rwa [UInt8.ofNat_toNat] at hb

theorem bits_and_lastBit (word : FifoWord) :
    word.bits &&& lastBit = if word.isLast then lastBit else 0 := by
  cases word with
  | address target reading last =>
    revert target reading last
    apply forall_byte
    decide +kernel
  | data byte last =>
    revert byte last
    apply forall_byte
    decide +kernel
  | stop => rfl

/-- Exactly the last words ask for the stop condition. -/
theorem bits_and_lastBit_ne_zero (word : FifoWord) : word.bits &&& lastBit ≠ 0 ↔ word.isLast := by
  rw [bits_and_lastBit]
  cases word.isLast <;> decide

theorem address_bits (target : UInt8) (reading last : Bool) :
    (address target reading last).bits &&& addressBit = addressBit := by
  revert target reading last
  apply forall_byte
  decide +kernel

theorem data_bits (byte : UInt8) (last : Bool) :
    (data byte last).bits &&& addressBit = 0 ∧ (data byte last).bits.toUInt8 = byte := by
  revert byte last
  apply forall_byte
  decide +kernel

/-- The address in a word is cut to seven bits. -/
theorem target_bits {target : UInt8} (h : target ≤ 0x7f) (reading last : Bool) :
    (((address target reading last).bits >>> 1) &&& 0x7f).toUInt8 = target := by
  revert target reading last
  apply forall_byte
  decide +kernel

theorem reading_bits (target : UInt8) (reading last : Bool) :
    ((address target reading last).bits &&& 1 != 0) = reading := by
  revert target reading last
  apply forall_byte
  decide +kernel

end TwoWire.FifoWord
