import Kdrivers.Bytes

/-! Clients that share a memory, each with a region of its own: while accesses stay in
their clients' regions, none of them sees or changes what is another's. -/
namespace Kdrivers.Isolation
open Bytes
variable {ι : Type} [DecidableEq ι]

structure Access (ι : Type) where
  client : ι
  write : Bool
  pos : Nat
  length : Nat
  bytes : Mem

def Access.step (m : Mem) (a : Access ι) : Mem := if a.write then patch m a.pos a.length a.bytes else m

def after (m : Mem) (accesses : List (Access ι)) : Mem := accesses.foldl Access.step m

def Confined (region : ι → Nat → Prop) (a : Access ι) : Prop := ∀ i < a.length, region a.client (a.pos + i)

def Apart (region : ι → Nat → Prop) : Prop := ∀ i j, i ≠ j → ∀ k, region i k → ¬ region j k

def own (i : ι) (accesses : List (Access ι)) : List (Access ι) := accesses.filter fun a => a.client = i

section
variable {region : ι → Nat → Prop}

omit [DecidableEq ι] in
theorem stepOutside {a : Access ι} (confined : Confined region a) (m : Mem) {k : Nat} (outside : ¬ region a.client k) :
    a.step m k = m k := by
  unfold Access.step
  split
  · by_cases inside : a.pos ≤ k ∧ k < a.pos + a.length
    · have here := confined (k - a.pos) (by omega)
      rw [Nat.add_sub_cancel' inside.1] at here
      exact absurd here outside
    · exact patchOutside (by omega)
  · rfl

omit [DecidableEq ι] in
theorem stepAgrees (a : Access ι) {m n : Mem} {k : Nat} (same : m k = n k) : a.step m k = a.step n k := by
  unfold Access.step
  split
  · by_cases inside : a.pos ≤ k ∧ k < a.pos + a.length
    · rw [patchInside inside.1 inside.2,patchInside inside.1 inside.2]
    · rw [patchOutside (by omega),patchOutside (by omega),same]
  · exact same

theorem afterOwn (apart : Apart region) {accesses : List (Access ι)} (confined : ∀ a ∈ accesses, Confined region a)
    (i : ι) {m n : Mem} (same : ∀ k, region i k → m k = n k) :
    ∀ k, region i k → after m accesses k = after n (own i accesses) k := by
  induction accesses generalizing m n with
  | nil => exact same
  | cons a rest ih =>
    have later : ∀ b ∈ rest, Confined region b := fun b mem => confined b (List.mem_cons_of_mem _ mem)
    by_cases mine : a.client = i
    · have first : own i (a::rest) = a::own i rest := List.filter_cons_of_pos (by simpa using mine)
      rw [first]
      exact ih later fun k here => stepAgrees a (same k here)
    · have first : own i (a::rest) = own i rest := List.filter_cons_of_neg (by simpa using mine)
      rw [first]
      refine ih later fun k here => ?_
      rw [stepOutside (confined a List.mem_cons_self) m fun other => apart _ _ mine k other here,same k here]

end
end Kdrivers.Isolation
