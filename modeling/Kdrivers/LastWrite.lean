import Kdrivers.Bytes

/-! What a memory holds after writes in a row: at each address the byte written there last,
or what was there before them all. -/
namespace Kdrivers.LastWrite
open Bytes

structure Write where
  pos : Nat
  length : Nat
  bytes : Mem

def Write.apply (m : Mem) (w : Write) : Mem := patch m w.pos w.length w.bytes

def Write.at? (w : Write) (k : Nat) : Option UInt8 :=
  if w.pos ≤ k ∧ k < w.pos + w.length then some (w.bytes (k - w.pos)) else none

def written : List Write → Nat → Option UInt8
  | [],_ => none
  | w::rest,k => written rest k <|> w.at? k

theorem applyAt (m : Mem) (w : Write) (k : Nat) : w.apply m k = (w.at? k).getD (m k) := by
  rw [Write.apply,patch,Write.at?]
  split <;> rfl

theorem appliedAt (writes : List Write) (m : Mem) (k : Nat) :
    writes.foldl Write.apply m k = (written writes k).getD (m k) := by
  induction writes generalizing m with
  | nil => rfl
  | cons w rest ih =>
    rw [List.foldl_cons,ih,written,applyAt]
    cases written rest k <;> rfl

end Kdrivers.LastWrite
