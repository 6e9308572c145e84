import Mathlib.Data.List.Nodup
import Mathlib.Data.List.Range
import Mathlib.Data.Nat.Bitwise

/-! The first set bit of a word, as __builtin_ffs counts it, and the bits that a loop over
it meets: those of the low 32, in order. -/
namespace Kdrivers.FirstSet

-- the argument is an int
def builtinFfs {w : Nat} (x : BitVec w) : Nat := match (List.range 32).find? x.getLsbD with
  | none => 0
  | some i => i + 1

def ones {w : Nat} (x : BitVec w) : List Nat := (List.range 32).filter x.getLsbD

variable {w : Nat} {x y : BitVec w} {f : Nat} {rest : List Nat}

theorem onesMem {i : Nat} : i ∈ ones x ↔ i < 32 ∧ x.getLsbD i = true := by
  rw [ones,List.mem_filter,List.mem_range]

theorem onesNodup (x : BitVec w) : (ones x).Nodup := List.nodup_range.filter _

theorem ffsFirst (x : BitVec w) : builtinFfs x = match (ones x).head? with
    | none => 0
    | some i => i + 1 := by
  rw [ones,List.head?_filter]
  rfl

theorem ffsNone (none : ones x = []) : builtinFfs x = 0 := by rw [ffsFirst,none]; rfl

theorem ffsSome (first : ones x = f::rest) : builtinFfs x = f + 1 := by rw [ffsFirst,first]; rfl

theorem onesTail (first : ones x = f::rest) (others : ∀ i < 32, y.getLsbD i = (x.getLsbD i && decide (i ≠ f))) :
    ones y = rest := by
  have distinct := onesNodup x
  rw [first,List.nodup_cons] at distinct
  have split : ones y = (ones x).filter fun i => decide (i ≠ f) := by
    rw [ones,ones,List.filter_filter]
    exact List.filter_congr fun i mem => (others i (List.mem_range.mp mem)).trans (Bool.and_comm _ _)
  rw [split,first,List.filter_cons_of_neg (by simp)]
  exact List.filter_eq_self.mpr fun i mem => decide_eq_true fun same => distinct.1 (same ▸ mem)

end Kdrivers.FirstSet
