import Mathlib.Data.Nat.Basic
import Mathlib.Data.Nat.ModEq
import Mathlib.Logic.Function.Basic
import Mathlib.Tactic.Ring

/-! Phase-tagged rings over any cell type. Item number n of an unbounded sequence
lives in cell n % cap and carries the tag of its pass; a consumer that compares
the tag needs no shared counter. Nothing here depends on a particular device. -/
namespace Kdrivers.TaggedRing
variable {α : Type}

def tag (cap n : Nat) : Bool := n / cap % 2 == 0

theorem tagFirstPass {cap n : Nat} (first : n < cap) : tag cap n = true := by
  simp [tag,Nat.div_eq_of_lt first]

theorem tagNextPass {cap : Nat} (pos : 0 < cap) (n : Nat) : tag cap (n + cap) = !tag cap n := by
  unfold tag
  rw [Nat.add_div_right n pos]
  rcases Nat.mod_two_eq_zero_or_one (n / cap) with even | odd
  · have flipped : (n / cap).succ % 2 = 1 := by omega
    simp [even,flipped]
  · have flipped : (n / cap).succ % 2 = 0 := by omega
    simp [odd,flipped]

/- What a ring holds once `items` have been produced and `taken` of them consumed:
the unconsumed ones under their own tags, and stale tags everywhere else. -/
structure Fresh (cap : Nat) (phase : α → Bool) (cells : Nat → α) (items : List α) (taken : Nat) : Prop where
  order : taken ≤ items.length
  room : items.length ≤ taken + cap
  new : ∀ n x, taken ≤ n → items[n]? = some x → cells (n % cap) = x ∧ phase x = tag cap n
  stale : ∀ n, items.length ≤ n → n < taken + cap → phase (cells (n % cap)) = !tag cap n

variable {cap : Nat} {phase : α → Bool} {cells : Nat → α} {items : List α} {taken : Nat}

theorem freshEmpty (blank : ∀ n, phase (cells n) = false) : Fresh cap phase cells [] 0 where
  order := Nat.le_refl _
  room := Nat.zero_le _
  new := by intro n x _ found; simp at found
  stale := by
    intro n _ below
    rw [blank,tagFirstPass (by omega)]
    rfl

theorem readyIff (pos : 0 < cap) (fresh : Fresh cap phase cells items taken) :
    phase (cells (taken % cap)) = tag cap taken ↔ taken < items.length := by
  constructor
  · intro same
    by_contra none
    have old := fresh.stale taken (by omega) (by omega)
    rw [same] at old
    cases h : tag cap taken <;> simp [h] at old
  · intro made
    obtain ⟨cell,tagged⟩ := fresh.new taken _ (Nat.le_refl _) (List.getElem?_eq_getElem made)
    rw [cell,tagged]

theorem cellsApart (cap : Nat) {n m : Nat} (below : n < m) (near : m < n + cap) : m % cap ≠ n % cap := by
  intro same
  have whole : cap ∣ m - n := (Nat.modEq_iff_dvd' (Nat.le_of_lt below)).mp same.symm
  have := Nat.le_of_dvd (by omega) whole
  omega

theorem freshPost (fresh : Fresh cap phase cells items taken) (room : items.length < taken + cap)
    {x : α} (tagged : phase x = tag cap items.length) :
    Fresh cap phase (Function.update cells (items.length % cap) x) (items ++ [x]) taken where
  order := by have := fresh.order; simp only [List.length_append,List.length_singleton]; omega
  room := by simp only [List.length_append,List.length_singleton]; omega
  new := by
    intro n y lower found
    rcases Nat.lt_trichotomy n items.length with old | same | beyond
    · rw [List.getElem?_append_left old] at found
      have apart := cellsApart cap old (by omega)
      rw [Function.update_of_ne apart.symm]
      exact fresh.new n y lower found
    · subst same
      have same : x = y := by simpa using found
      subst same
      exact ⟨Function.update_self ..,tagged⟩
    · rw [List.getElem?_eq_none (by simp; omega)] at found
      cases found
  stale := by
    intro n beyond below
    simp only [List.length_append,List.length_singleton] at beyond
    have order := fresh.order
    have apart := cellsApart cap (show items.length < n by omega) (by omega)
    rw [Function.update_of_ne apart]
    exact fresh.stale n (by omega) below

theorem freshTake (pos : 0 < cap) (fresh : Fresh cap phase cells items taken)
    (made : taken < items.length) : Fresh cap phase cells items (taken + 1) where
  order := made
  room := by have := fresh.room; omega
  new := by intro n x lower found; exact fresh.new n x (by omega) found
  stale := by
    intro n beyond below
    by_cases old : n < taken + cap
    · exact fresh.stale n beyond old
    · -- the cell just consumed is the one its successor of the next pass will reuse
      have same : n = taken + cap := by omega
      subst same
      obtain ⟨cell,tagged⟩ := fresh.new taken _ (Nat.le_refl _) (List.getElem?_eq_getElem made)
      rw [Nat.add_mod_right,cell,tagged,tagNextPass pos,Bool.not_not]

end Kdrivers.TaggedRing
