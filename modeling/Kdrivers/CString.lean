import Kdrivers.Bytes

/-! Strings of C in byte memories, and the comparison of their first bytes. -/
namespace Kdrivers.CString
open Bytes

structure Name where
  bytes : List UInt8
  plain : ∀ b ∈ bytes, b ≠ 0

@[ext] theorem Name.ext {a b : Name} (same : a.bytes = b.bytes) : a = b := by
  cases a
  cases b
  cases same
  rfl

def text (bytes : List UInt8) : Mem := fun i => bytes.getD i 0

theorem textInside {bytes : List UInt8} {i : Nat} (inside : i < bytes.length) : text bytes i = bytes[i] := by
  rw [text,List.getD_eq_getElem?_getD,List.getElem?_eq_getElem inside]
  rfl

theorem textPast {bytes : List UInt8} {i : Nat} (past : bytes.length ≤ i) : text bytes i = 0 := by
  rw [text,List.getD_eq_getElem?_getD,List.getElem?_eq_none past]
  rfl

def Starts (m : Mem) (bytes : List UInt8) : Prop := ∀ i < bytes.length, m i = text bytes i

def strncmp : Nat → Mem → Mem → Int
  | 0,_,_ => 0
  | n+1,a,b =>
    if a 0 ≠ b 0 then (a 0).toNat - (b 0).toNat
    else if a 0 = 0 then 0
    else strncmp n (view a 1) (view b 1)

theorem textTail (b : UInt8) (bytes : List UInt8) : view (text (b::bytes)) 1 = text bytes := by
  funext i
  rw [viewApply,text,Nat.add_comm]
  rfl

theorem startsTail {m : Mem} {b : UInt8} {bytes : List UInt8} (starts : Starts m (b::bytes)) :
    m 0 = b ∧ Starts (view m 1) bytes := by
  refine ⟨starts 0 (Nat.succ_pos _),fun i inside => ?_⟩
  rw [← textTail b bytes]
  exact starts (1 + i) (by rw [List.length_cons,Nat.add_comm]; exact Nat.succ_lt_succ inside)

theorem strncmpPrefix {a : Mem} {bytes target : List UInt8} (starts : Starts a bytes) (plain : ∀ b ∈ bytes, b ≠ 0) :
    strncmp bytes.length a (text target) = 0 ↔ bytes <+: target := by
  induction bytes generalizing a target with
  | nil => exact iff_of_true rfl target.nil_prefix
  | cons b bytes ih =>
    obtain ⟨head,tail⟩ := startsTail starts
    have some : b ≠ 0 := plain b List.mem_cons_self
    have differ {c : UInt8} (other : b ≠ c) : ((b.toNat : Int) - c.toNat = 0) ↔ False := by
      refine iff_false_intro fun zero => other (UInt8.toNat_inj.mp ?_)
      omega
    cases target with
    | nil =>
      have last : text [] 0 = 0 := rfl
      rw [List.length_cons,strncmp,head,last,if_pos some,differ some]
      simp
    | cons c target =>
      have first : text (c::target) 0 = c := rfl
      rw [List.length_cons,strncmp,head,first]
      by_cases same : b = c
      · subst same
        rw [if_neg (not_not.mpr rfl),if_neg some,textTail,List.cons_prefix_cons,
          ih tail fun d mem => plain d (List.mem_cons_of_mem _ mem)]
        simp
      · rw [if_pos same,differ same,List.cons_prefix_cons]
        simp [same]

end Kdrivers.CString
