import Mathlib.Data.Nat.Bitwise

/-! The bit-field macros of the kernel library. Most fields the drivers look at are of
one bit. -/
namespace Kdrivers.BitFields

/- MASKED_READ and MASKED_WRITE: the field of mask at shift. -/
structure Masked where
  read : {w : Nat} → BitVec w → Nat → Nat → Nat
  write : {w : Nat} → BitVec w → Nat → Nat → Nat → BitVec w
  reads : ∀ {w : Nat} (v : BitVec w) (shift mask : Nat), read v shift mask = (v >>> shift).toNat &&& mask
  writes : ∀ {w : Nat} (v : BitVec w) (value shift mask : Nat), write v value shift mask =
    (v &&& ~~~ (BitVec.ofNat w mask <<< shift)) ||| (BitVec.ofNat w (value &&& mask) <<< shift)

def Masked.standard : Masked :=
  ⟨fun v shift mask => (v >>> shift).toNat &&& mask,fun {w} v value shift mask =>
    (v &&& ~~~ (BitVec.ofNat w mask <<< shift)) ||| (BitVec.ofNat w (value &&& mask) <<< shift),
    fun _ _ _ => rfl,fun _ _ _ _ => rfl⟩

theorem readField (m : Masked) {w : Nat} (v : BitVec w) (shift n : Nat) :
    m.read v shift (2^n - 1) = v.toNat / 2^shift % 2^n := by
  rw [m.reads,Nat.and_two_pow_sub_one_eq_mod,BitVec.toNat_ushiftRight,Nat.shiftRight_eq_div_pow]

theorem readBit (m : Masked) {w : Nat} (v : BitVec w) (i : Nat) : m.read v i 1 = (v.getLsbD i).toNat := by
  rw [m.reads,Nat.and_one_is_mod,BitVec.toNat_ushiftRight,BitVec.getLsbD,Nat.testBit_eq_decide_div_mod_eq,
    Nat.shiftRight_eq_div_pow]
  rcases Nat.mod_two_eq_zero_or_one (v.toNat / 2^i) with even | odd
  · simp [even]
  · simp [odd]

theorem readBitOne (m : Masked) {w : Nat} (v : BitVec w) (i : Nat) : m.read v i 1 = 1 ↔ v.getLsbD i = true := by
  rw [readBit]
  cases v.getLsbD i <;> simp

theorem readBitZero (m : Masked) {w : Nat} (v : BitVec w) (i : Nat) : m.read v i 1 = 0 ↔ v.getLsbD i = false := by
  rw [readBit]
  cases v.getLsbD i <;> simp

theorem readTestBit (m : Masked) {w : Nat} (v : BitVec w) (shift n i : Nat) :
    (m.read v shift (2^n - 1)).testBit i = (decide (i < n) && v.getLsbD (shift + i)) := by
  rw [m.reads,Nat.testBit_and,Nat.testBit_two_pow_sub_one,BitVec.toNat_ushiftRight,Nat.testBit_shiftRight,Bool.and_comm]
  rfl

theorem writeField (m : Masked) {w : Nat} (v : BitVec w) (value shift n : Nat) {j : Nat} (inside : j < w) :
    (m.write v value shift (2^n - 1)).getLsbD j =
      if shift ≤ j ∧ j < shift + n then value.testBit (j - shift) else v.getLsbD j := by
  rw [m.writes,BitVec.getLsbD_or,BitVec.getLsbD_and,BitVec.getLsbD_not,BitVec.getLsbD_shiftLeft,
    BitVec.getLsbD_shiftLeft,BitVec.getLsbD_ofNat,BitVec.getLsbD_ofNat,Nat.testBit_and,Nat.testBit_two_pow_sub_one]
  by_cases below : j < shift
  · simp [inside,below,Nat.not_le.mpr below]
  · have low : j - shift < w := by omega
    have reach : j - shift < n ↔ j < shift + n := by omega
    by_cases here : j < shift + n <;> simp [inside,low,below,Nat.le_of_not_lt below,reach,here]

theorem writeBit (m : Masked) {w : Nat} (v : BitVec w) (value : Nat) {i : Nat} (inside : i < w) :
    (m.write v value i 1).getLsbD i = decide (value % 2 = 1) := by
  have field := writeField m v value i 1 inside
  rw [if_pos ⟨Nat.le_refl i,Nat.lt_succ_self i⟩,Nat.sub_self,Nat.testBit_zero] at field
  exact field

theorem writeOther (m : Masked) {w : Nat} (v : BitVec w) (value : Nat) {i j : Nat} (other : j ≠ i) :
    (m.write v value i 1).getLsbD j = v.getLsbD j := by
  by_cases inside : j < w
  · have field := writeField m v value i 1 inside
    rw [if_neg (by omega)] at field
    exact field
  · rw [BitVec.getLsbD_of_ge _ _ (Nat.le_of_not_lt inside),BitVec.getLsbD_of_ge _ _ (Nat.le_of_not_lt inside)]

theorem readWritten (m : Masked) {w : Nat} (v : BitVec w) (value shift n : Nat) (fits : shift + n ≤ w) :
    m.read (m.write v value shift (2^n - 1)) shift (2^n - 1) = value % 2^n := by
  apply Nat.eq_of_testBit_eq
  intro i
  rw [readTestBit,Nat.testBit_mod_two_pow]
  by_cases low : i < n
  · rw [writeField m v value shift n (by omega),if_pos (by omega),Nat.add_sub_cancel_left]
  · simp [low]

theorem readUnwritten (m : Masked) {w : Nat} (v : BitVec w) (value shift n other k : Nat) (fits : other + k ≤ w)
    (apart : other + k ≤ shift ∨ shift + n ≤ other) :
    m.read (m.write v value shift (2^n - 1)) other (2^k - 1) = m.read v other (2^k - 1) := by
  apply Nat.eq_of_testBit_eq
  intro i
  rw [readTestBit,readTestBit]
  by_cases low : i < k
  · rw [writeField m v value shift n (by omega),if_neg (by omega)]
  · simp [low]

theorem readWithin (m : Masked) {w : Nat} (v : BitVec w) (value shift n other k : Nat) (fits : other + k ≤ w)
    (inside : shift ≤ other ∧ other + k ≤ shift + n) :
    m.read (m.write v value shift (2^n - 1)) other (2^k - 1) = value / 2^(other - shift) % 2^k := by
  apply Nat.eq_of_testBit_eq
  intro i
  rw [readTestBit,Nat.testBit_mod_two_pow,Nat.testBit_div_two_pow]
  by_cases low : i < k
  · rw [writeField m v value shift n (by omega),if_pos (by omega),show other + i - shift = i + (other - shift) by omega]
  · simp [low]

theorem onlyBits {w : Nat} {v mask : BitVec w} : v &&& ~~~ mask = 0 ↔
    ∀ i, v.getLsbD i = true → mask.getLsbD i = true := by
  constructor
  · intro none i set
    have inside := BitVec.lt_of_getLsbD set
    have bit := congrArg (fun u => BitVec.getLsbD u i) none
    simpa [set,inside] using bit
  · intro only
    apply BitVec.eq_of_getLsbD_eq
    intro i inside
    by_cases set : v.getLsbD i = true
    · simp [set,only i set]
    · simp [set]

end Kdrivers.BitFields
