import Mathlib.Data.List.Nodup

/-! Dictionaries that keep the order in which their keys came, as pairs of key and value,
and lists in which only the first of equal items is kept. -/
namespace Kdrivers.PyDict
variable {κ α : Type} [DecidableEq κ]

abbrev Dict (κ α : Type) := List (κ × α)

def item? : Dict κ α → κ → Option α
  | [],_ => none
  | (j,v)::d,k => if j = k then some v else item? d k

def setItem : Dict κ α → κ → α → Dict κ α
  | [],k,v => [(k,v)]
  | (j,w)::d,k,v => if j = k then (j,v)::d else (j,w)::setItem d k v

def keys (d : Dict κ α) : List κ := d.map Prod.fst

theorem itemSet (d : Dict κ α) (k : κ) (v : α) (j : κ) :
    item? (setItem d k v) j = if k = j then some v else item? d j := by
  induction d with
  | nil => rfl
  | cons p d ih =>
    obtain ⟨i,w⟩ := p
    rw [setItem]
    by_cases here : i = k
    · subst here
      rw [if_pos rfl,item?,item?]
      split <;> rfl
    · rw [if_neg here,item?,item?,ih]
      by_cases first : i = j
      · subst first
        rw [if_pos rfl,if_pos rfl,if_neg (Ne.symm here)]
      · rw [if_neg first,if_neg first]

theorem keysSet (d : Dict κ α) (k : κ) (v : α) :
    keys (setItem d k v) = if k ∈ keys d then keys d else keys d ++ [k] := by
  induction d with
  | nil => rfl
  | cons p d ih =>
    obtain ⟨i,w⟩ := p
    rw [setItem]
    by_cases here : i = k
    · subst here
      simp [keys]
    · have cons : keys ((i,w)::setItem d k v) = i::keys (setItem d k v) := rfl
      have old : keys ((i,w)::d) = i::keys d := rfl
      rw [if_neg here,cons,old,ih]
      by_cases later : k ∈ keys d
      · rw [if_pos later,if_pos (List.mem_cons_of_mem _ later)]
      · have fresh : k ∉ i::keys d := List.not_mem_cons_of_ne_of_not_mem (Ne.symm here) later
        rw [if_neg later,if_neg fresh]
        rfl

theorem setFresh {d : Dict κ α} {k : κ} (fresh : k ∉ keys d) (v : α) : setItem d k v = d ++ [(k,v)] := by
  induction d with
  | nil => rfl
  | cons p d ih =>
    obtain ⟨i,w⟩ := p
    have other : i ≠ k := fun same => fresh (List.mem_cons.mpr (.inl same.symm))
    rw [setItem,if_neg other,ih fun mem => fresh (List.mem_cons_of_mem i mem)]
    rfl

theorem keysOf {d : Dict κ α} {k : κ} (present : k ∈ keys d) (v : α) : keys (setItem d k v) = keys d := by
  rw [keysSet,if_pos present]

theorem itemMem {d : Dict κ α} {k : κ} : (∃ v, item? d k = some v) ↔ k ∈ keys d := by
  induction d with
  | nil => simp [item?,keys]
  | cons p d ih =>
    obtain ⟨i,w⟩ := p
    have old : keys ((i,w)::d) = i::keys d := rfl
    rw [item?,old,List.mem_cons,← ih]
    by_cases here : i = k
    · simp [here]
    · simp [here,Ne.symm here]

theorem itemNone {d : Dict κ α} {k : κ} : item? d k = none ↔ k ∉ keys d := by
  rw [← itemMem]
  cases item? d k <;> simp

theorem itemIn {d : Dict κ α} {k : κ} {v : α} (here : item? d k = some v) : (k,v) ∈ d := by
  induction d with
  | nil => cases here
  | cons p d ih =>
    obtain ⟨i,w⟩ := p
    rw [item?] at here
    split at here
    · subst ‹i = k›
      cases here
      exact List.mem_cons_self
    · exact List.mem_cons_of_mem _ (ih here)

theorem itemPair {d : Dict κ α} (nodup : (keys d).Nodup) {k : κ} {v : α} : item? d k = some v ↔ (k,v) ∈ d := by
  refine ⟨itemIn,fun pair => ?_⟩
  obtain ⟨w,here⟩ := itemMem.mpr (List.mem_map.mpr ⟨_,pair,rfl⟩ : k ∈ keys d)
  have same := congrArg Prod.snd (List.inj_on_of_nodup_map nodup (itemIn here) pair rfl)
  exact here.trans (congrArg some same)

omit [DecidableEq κ] in
theorem snocNodup {l : List κ} {k : κ} (nodup : l.Nodup) (fresh : k ∉ l) : (l ++ [k]).Nodup := by
  rw [← List.concat_eq_append]
  exact nodup.concat fresh

theorem keysNodup {d : Dict κ α} (nodup : (keys d).Nodup) (k : κ) (v : α) : (keys (setItem d k v)).Nodup := by
  rw [keysSet]
  by_cases present : k ∈ keys d
  · rwa [if_pos present]
  · rw [if_neg present]
    exact snocNodup nodup present

def once (seen : List κ) (k : κ) : List κ := if k ∈ seen then seen else seen ++ [k]
def extend (seen items : List κ) : List κ := items.foldl once seen

theorem onceMem {seen : List κ} {j k : κ} : j ∈ once seen k ↔ j ∈ seen ∨ j = k := by
  unfold once
  by_cases here : k ∈ seen
  · rw [if_pos here]
    exact ⟨.inl,fun found => found.elim id fun same => same ▸ here⟩
  · rw [if_neg here,List.mem_append,List.mem_singleton]

theorem onceNodup {seen : List κ} (nodup : seen.Nodup) (k : κ) : (once seen k).Nodup := by
  unfold once
  by_cases here : k ∈ seen
  · rwa [if_pos here]
  · rw [if_neg here]
    exact snocNodup nodup here

theorem extendAppend (seen first second : List κ) : extend seen (first ++ second) = extend (extend seen first) second :=
  List.foldl_append

theorem extendMem {seen items : List κ} {k : κ} : k ∈ extend seen items ↔ k ∈ seen ∨ k ∈ items := by
  induction items generalizing seen with
  | nil => simp [extend]
  | cons i items ih =>
    change k ∈ extend (once seen i) items ↔ _
    rw [ih,onceMem,List.mem_cons,or_assoc]

theorem extendKnown {seen items : List κ} (known : ∀ k ∈ items, k ∈ seen) : extend seen items = seen := by
  induction items with
  | nil => rfl
  | cons i items ih =>
    change extend (once seen i) items = _
    rw [once,if_pos (known i List.mem_cons_self)]
    exact ih fun k mem => known k (List.mem_cons_of_mem _ mem)

theorem extendNodup {seen : List κ} (nodup : seen.Nodup) (items : List κ) : (extend seen items).Nodup := by
  induction items generalizing seen with
  | nil => exact nodup
  | cons i items ih => exact ih (onceNodup nodup i)

end Kdrivers.PyDict
