import Mathlib.Logic.Relation
import Mathlib.Logic.Function.Basic
import Kdrivers.Bytes

/-! Components that take steps one at a time, and words of a memory they share, each written
by one of them. -/
namespace Kdrivers.Interleave
open Bytes

section Steps
variable {ι σ : Type} [DecidableEq ι]

def Each (step : ι → σ → σ → Prop) (s t : ι → σ) : Prop := ∃ i x, step i (s i) x ∧ t = Function.update s i x

theorem eachRuns {step : ι → σ → σ → Prop} {s t : ι → σ} (run : Relation.ReflTransGen (Each step) s t) (i : ι) :
    Relation.ReflTransGen (step i) (s i) (t i) := by
  induction run with
  | refl => exact .refl
  | tail _ go ih =>
    obtain ⟨j,x,one,rfl⟩ := go
    by_cases same : i = j
    · subst same
      rw [Function.update_self]
      exact ih.tail one
    · rwa [Function.update_of_ne same]

end Steps

def word (v : Nat) : Mem := fun i => UInt8.ofNat (v / 256^i)

def storeWord (m : Mem) (pos v : Nat) : Mem := patch m pos 4 (word v)

theorem storeRead (m : Mem) (pos : Nat) {v : Nat} (fits : v < 2^32) : le32 (storeWord m pos v) pos = v := by
  have byte (i : Nat) (low : i < 4) : (storeWord m pos v (pos + i)).toNat = v / 256^i % 256 := by
    rw [storeWord,patchInside (by omega) (by omega),Nat.add_sub_cancel_left,word,UInt8.toNat_ofNat']
  have first := byte 0 (by omega)
  have second := byte 1 (by omega)
  have third := byte 2 (by omega)
  have fourth := byte 3 (by omega)
  rw [le32,le16,le16]
  simp only [Nat.add_zero,Nat.add_assoc,Nat.reduceAdd] at *
  omega

theorem storeOther (m : Mem) {pos other : Nat} (v : Nat) (apart : pos + 4 ≤ other ∨ other + 4 ≤ pos) :
    le32 (storeWord m pos v) other = le32 m other :=
  le32Congr fun i low => patchOutside (by omega)

section Words
variable {ι κ σ : Type} [DecidableEq ι] {cells : ι → κ → Nat} {holds : σ → κ → Nat} {memory : Mem} {parts : ι → σ}

def Apart (cells : ι → κ → Nat) : Prop := ∀ i k j l, ¬ (i = j ∧ k = l) →
  cells i k + 4 ≤ cells j l ∨ cells j l + 4 ≤ cells i k

def Shows (cells : ι → κ → Nat) (holds : σ → κ → Nat) (memory : Mem) (parts : ι → σ) : Prop :=
  ∀ i k, le32 memory (cells i k) = holds (parts i) k

theorem storeShows (apart : Apart cells) (shows : Shows cells holds memory parts) {i : ι} {k : κ} {x : σ}
    (fits : holds x k < 2^32) (same : ∀ l, l ≠ k → holds x l = holds (parts i) l) :
    Shows cells holds (storeWord memory (cells i k) (holds x k)) (Function.update parts i x) := by
  intro j l
  by_cases own : i = j ∧ k = l
  · obtain ⟨rfl,rfl⟩ := own
    rw [Function.update_self]
    exact storeRead memory _ fits
  · rw [storeOther memory _ (apart i k j l own),shows]
    by_cases mine : j = i
    · subst mine
      rw [Function.update_self]
      exact (same l fun equal => own ⟨rfl,equal.symm⟩).symm
    · rw [Function.update_of_ne mine]

theorem quietShows (shows : Shows cells holds memory parts) {i : ι} {x : σ} (same : holds x = holds (parts i)) :
    Shows cells holds memory (Function.update parts i x) := by
  intro j l
  rw [shows]
  by_cases mine : j = i
  · subst mine
    rw [Function.update_self,same]
  · rw [Function.update_of_ne mine]

end Words

end Kdrivers.Interleave
