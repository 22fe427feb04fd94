/-!
# Bit deposit

Scattering the low bits of a word into the set positions of a mask, lowest first.
-/

namespace GateFusion.Bits

theorem toNat_strike_lt {r : UInt64} (h : r ≠ 0) : (r &&& (r - 1)).toNat < r.toNat := by
  have hpos : 0 < r.toNat := by
    rcases Nat.eq_zero_or_pos r.toNat with h0 | h0
    · exact absurd (UInt64.toNat_inj.mp (by simpa using h0)) h
    · exact h0
  have hle : (1 : UInt64) ≤ r := by
    rw [UInt64.le_iff_toNat_le]
    have : 1 ≤ r.toNat := hpos
    simpa using this
  have hsub : (r - 1).toNat = r.toNat - 1 := by
    simpa using UInt64.toNat_sub_of_le _ _ hle
  rw [UInt64.toNat_and]
  have := @Nat.and_le_right r.toNat (r - 1).toNat
  omega

/-- One round for every set bit of `remaining`: the next bit of `value` goes to its place. -/
def depositFrom (value remaining bit result : UInt64) : UInt64 :=
  if _h : remaining = 0 then result
  else
    let lowest := remaining &&& (0 - remaining)
    let result := if value &&& bit != 0 then result ||| lowest else result
    depositFrom value (remaining &&& (remaining - 1)) (bit <<< 1) result
termination_by remaining.toNat
decreasing_by exact toNat_strike_lt _h

/-- The low bits of `value` in the set positions of `mask`. -/
def deposit (value mask : UInt64) : UInt64 :=
  depositFrom value mask 1 0

def fullMask (n : Nat) : UInt64 :=
  if 64 ≤ n then 0 - 1 else (1 <<< UInt64.ofNat n) - 1

end GateFusion.Bits
