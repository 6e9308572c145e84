import Mathlib.Tactic.Ring

/-! Byte memories as functions from addresses, block copies between them,
little-endian fields, and uint64_t arithmetic. A block copy is described by what each
byte is afterwards. -/
namespace Kdrivers.Bytes

abbrev Mem := Nat → UInt8

def patch (m : Mem) (pos n : Nat) (src : Mem) : Mem := fun i =>
  if pos ≤ i ∧ i < pos + n then src (i - pos) else m i

def view (m : Mem) (pos : Nat) : Mem := fun i => m (pos + i)

def zeros : Mem := fun _ => 0

def Agree (n : Nat) (a : Mem) (p : Nat) (b : Mem) (q : Nat) : Prop := ∀ i < n, a (p + i) = b (q + i)

@[simp] theorem viewApply (m : Mem) (pos i : Nat) : view m pos i = m (pos + i) := rfl

theorem viewZero (m : Mem) : view m 0 = m := by
  funext i
  exact congrArg m (Nat.zero_add i)

theorem viewView (m : Mem) (p q : Nat) : view (view m p) q = view m (p + q) := by
  funext i
  exact congrArg m (Nat.add_assoc p q i).symm

theorem patchInside {m src : Mem} {pos n i : Nat} (lower : pos ≤ i) (upper : i < pos + n) :
    patch m pos n src i = src (i - pos) := if_pos ⟨lower,upper⟩

theorem patchOutside {m src : Mem} {pos n i : Nat} (outside : i < pos ∨ pos + n ≤ i) :
    patch m pos n src i = m i := if_neg (by omega)

@[simp] theorem patchNone (m src : Mem) (pos : Nat) : patch m pos 0 src = m := by
  funext i
  exact patchOutside (by omega)

theorem patchSelf {m src : Mem} {pos n : Nat} (same : ∀ i < n, src i = m (pos + i)) :
    patch m pos n src = m := by
  funext i
  by_cases inside : pos ≤ i ∧ i < pos + n
  · rw [patchInside inside.1 inside.2,same (i - pos) (by omega),Nat.add_sub_cancel' inside.1]
  · exact patchOutside (by omega)

theorem patchCongr {m a b : Mem} {pos n : Nat} (same : ∀ i < n, a i = b i) : patch m pos n a = patch m pos n b := by
  funext i
  by_cases inside : pos ≤ i ∧ i < pos + n
  · rw [patchInside inside.1 inside.2,patchInside inside.1 inside.2,same (i - pos) (by omega)]
  · rw [patchOutside (by omega),patchOutside (by omega)]

theorem patchAppend (m src : Mem) (pos n k : Nat) :
    patch (patch m pos n src) (pos + n) k (view src n) = patch m pos (n + k) src := by
  funext i
  by_cases later : pos + n ≤ i ∧ i < pos + n + k
  · rw [patchInside later.1 later.2,patchInside (by omega) (by omega),viewApply]
    exact congrArg src (by omega)
  · rw [patchOutside (by omega)]
    by_cases early : pos ≤ i ∧ i < pos + n
    · rw [patchInside early.1 early.2,patchInside early.1 (by omega)]
    · rw [patchOutside (by omega),patchOutside (by omega)]

theorem patchBack {n p k : Nat} (inside : p + k ≤ n) (m held src : Mem) (pos : Nat) :
    patch m pos n (patch (patch held 0 n (view m pos)) p k src) = patch m (pos + p) k src := by
  funext i
  by_cases taken : pos ≤ i ∧ i < pos + n
  · rw [patchInside taken.1 taken.2]
    by_cases changed : pos + p ≤ i ∧ i < pos + p + k
    · rw [patchInside (by omega) (by omega),patchInside changed.1 changed.2]
      exact congrArg src (by omega)
    · have kept : patch (patch held 0 n (view m pos)) p k src (i - pos) = patch held 0 n (view m pos) (i - pos) :=
        patchOutside (by omega)
      have same : patch m (pos + p) k src i = m i := patchOutside (by omega)
      rw [kept,same,patchInside (by omega) (by omega),viewApply]
      exact congrArg m (by omega)
  · rw [patchOutside (by omega),patchOutside (by omega)]

theorem patchWhole (m held src : Mem) (pos n : Nat) : patch m pos n (patch held 0 n src) = patch m pos n src := by
  funext i
  by_cases taken : pos ≤ i ∧ i < pos + n
  · rw [patchInside taken.1 taken.2,patchInside taken.1 taken.2,patchInside (Nat.zero_le _) (by omega),Nat.sub_zero]
  · rw [patchOutside (by omega),patchOutside (by omega)]

def add64 (a b : Nat) : Nat := (a + b) % 2^64
def sub64 (a b : Nat) : Nat := (a + (2^64 - b)) % 2^64
def mul64 (a b : Nat) : Nat := a * b % 2^64
def pred64 (a : Nat) : Nat := (a + (2^64 - 1)) % 2^64

theorem add64Eq {a b : Nat} (fits : a + b < 2^64) : add64 a b = a + b := Nat.mod_eq_of_lt fits

theorem mul64Eq {a b : Nat} (fits : a * b < 2^64) : mul64 a b = a * b := Nat.mod_eq_of_lt fits

theorem sub64Eq {a b : Nat} (fits : a < 2^64) (below : b ≤ a) : sub64 a b = a - b := by
  rw [sub64,show a + (2^64 - b) = a - b + 2^64 by omega,Nat.add_mod_right]
  exact Nat.mod_eq_of_lt (by omega)

theorem intIff {n : Nat} : (BitVec.ofNat 32 n).toInt = n ↔ n < 2^31 := by
  rw [BitVec.toInt_eq_toNat_cond,BitVec.toNat_ofNat]
  split <;> omega

def le16 (m : Mem) (pos : Nat) : Nat := (m pos).toNat + 256 * (m (pos + 1)).toNat

def le32 (m : Mem) (pos : Nat) : Nat := le16 m pos + 65536 * le16 m (pos + 2)

def le64 (m : Mem) (pos : Nat) : Nat := le32 m pos + 2^32 * le32 m (pos + 4)

theorem le16Lt (m : Mem) (pos : Nat) : le16 m pos < 2^16 := by
  have low := (m pos).toNat_lt
  have high := (m (pos + 1)).toNat_lt
  unfold le16
  omega

theorem le32Lt (m : Mem) (pos : Nat) : le32 m pos < 2^32 := by
  have low := le16Lt m pos
  have high := le16Lt m (pos + 2)
  unfold le32
  omega

theorem le16Congr {a b : Mem} {p q : Nat} (same : Agree 2 a p b q) : le16 a p = le16 b q := by
  have first := same 0 (by omega)
  have second := same 1 (by omega)
  simp only [Nat.add_zero] at first
  unfold le16
  rw [first,second]

theorem le32Congr {a b : Mem} {p q : Nat} (same : Agree 4 a p b q) : le32 a p = le32 b q := by
  have low : le16 a p = le16 b q := le16Congr fun i hi => same i (by omega)
  have high : le16 a (p + 2) = le16 b (q + 2) := le16Congr fun i hi => by
    rw [Nat.add_assoc,Nat.add_assoc]
    exact same (2 + i) (by omega)
  unfold le32
  rw [low,high]

theorem le32Zero {m : Mem} {pos : Nat} : le32 m pos = 0 ↔ ∀ j < 4, m (pos + j) = 0 := by
  have byte (i : Nat) : (m i).toNat = 0 ↔ m i = 0 := UInt8.toNat_inj (b := 0)
  unfold le32 le16
  rw [show pos + 2 + 1 = pos + 3 from rfl]
  constructor
  · intro zero j low
    rw [← byte]
    match j, low with
    | 0, _ => rw [Nat.add_zero]; omega
    | 1, _ => omega
    | 2, _ => omega
    | 3, _ => omega
  · intro zero
    have first := (byte pos).mpr (zero 0 (by decide))
    have second := (byte _).mpr (zero 1 (by decide))
    have third := (byte _).mpr (zero 2 (by decide))
    have fourth := (byte _).mpr (zero 3 (by decide))
    omega

theorem blocksApart {bs a b i j : Nat} (apart : a ≠ b) (low : i < bs) (inside : j < bs) : a * bs + i ≠ b * bs + j := by
  intro same
  have left : (a * bs + i) / bs = a := by
    rw [Nat.mul_comm,Nat.mul_add_div (by omega),Nat.div_eq_of_lt low,Nat.add_zero]
  have right : (b * bs + j) / bs = b := by
    rw [Nat.mul_comm,Nat.mul_add_div (by omega),Nat.div_eq_of_lt inside,Nat.add_zero]
  rw [same,right] at left
  exact apart left.symm

end Kdrivers.Bytes
