import Kdrivers.Outcome
import Kdrivers.Bytes

/-! Arrays of bytes under calls in a row, as a specification: every array is alone. A system
that keeps step with it for one call does so for any number of them. -/
namespace Kdrivers.ArrayStore
open Bytes

section Runs
variable {σ τ γ δ α κ : Type}

def runAll (exec : γ → σ → Outcome (α × σ)) : List γ → σ → Outcome (List α × σ)
  | [],s => .ret ([],s)
  | c::rest,s => do
    let (a,s) ← exec c s
    let (later,s) ← runAll exec rest s
    .ret (a::later,s)

def specAll (spec : δ → τ → α × τ) : List δ → τ → List α × τ
  | [],t => ([],t)
  | c::rest,t =>
    let (a,t) := spec c t
    let (later,t) := specAll spec rest t
    (a::later,t)

def Returns {β : Type} (run : Nat → Outcome β) (b : β) : Prop := ∃ enough, ∀ fuel, enough ≤ fuel → run fuel = .ret b

theorem returnsBind {β ε : Type} {x : Nat → Outcome β} {f : Nat → β → Outcome ε} {b : β} {d : ε}
    (first : Returns x b) (next : Returns (fun fuel => f fuel b) d) : Returns (fun fuel => x fuel >>= f fuel) d := by
  obtain ⟨j,first⟩ := first
  obtain ⟨k,next⟩ := next
  refine ⟨max j k,fun fuel enough => ?_⟩
  dsimp only
  rw [first fuel ((Nat.le_max_left j k).trans enough),Outcome.retBind]
  exact next fuel ((Nat.le_max_right j k).trans enough)

theorem returnsMap {β ε : Type} {x : Nat → Outcome β} {b : β} (f : β → ε) (returns : Returns x b) :
    Returns (fun fuel => (x fuel).map f) (f b) := returnsBind returns ⟨0,fun _ _ => rfl⟩

inductive Along (means : κ → γ → δ → κ → Prop) : κ → List γ → List δ → κ → Prop where
  | nil {k : κ} : Along means k [] [] k
  | cons {k l m : κ} {c : γ} {d : δ} {cs : List γ} {ds : List δ} (first : means k c d l)
      (rest : Along means l cs ds m) : Along means k (c::cs) (d::ds) m

/-- A system each of whose calls answers as some call of the specification that stands for
it, and keeps its relation to the specification, does so over every sequence of calls. -/
theorem runKeepsStep (exec : Nat → γ → σ → Outcome (α × σ)) (spec : δ → τ → α × τ) (ok : γ → Prop) (point : σ → κ)
    (means : κ → γ → δ → κ → Prop) (rel : σ → τ → Prop)
    (step : ∀ c, ok c → ∀ s t, rel s t → ∃ d after, means (point s) c d (point after) ∧
      Returns (fun fuel => exec fuel c s) ((spec d t).1,after) ∧ rel after (spec d t).2)
    (calls : List γ) (all : ∀ c ∈ calls, ok c) {s : σ} {t : τ} (start : rel s t) : ∃ meant after,
    Along means (point s) calls meant (point after) ∧
      Returns (fun fuel => runAll (exec fuel) calls s) ((specAll spec meant t).1,after) ∧
      rel after (specAll spec meant t).2 := by
  induction calls generalizing s t with
  | nil => exact ⟨[],s,.nil,⟨0,fun _ _ => rfl⟩,start⟩
  | cons c rest ih =>
    obtain ⟨d,middle,one,first,related⟩ := step c (all c List.mem_cons_self) s t start
    obtain ⟨meant,after,others,run,last⟩ := ih (fun d mem => all d (List.mem_cons_of_mem _ mem)) related
    refine ⟨d::meant,after,.cons one others,returnsBind first ?_,last⟩
    exact returnsBind run ⟨0,fun _ _ => rfl⟩

theorem alongMap {f : γ → δ} {k l : κ} {cs : List γ} {ds : List δ} (along : Along (fun _ c d _ => d = f c) k cs ds l) :
    ds = cs.map f := by
  induction along with
  | nil => rfl
  | cons first _ ih => rw [first,List.map_cons,ih]

theorem runKeepsEach (exec : Nat → γ → σ → Outcome (α × σ)) (spec : δ → τ → α × τ) (ok : γ → Prop) (stands : γ → δ)
    (rel : σ → τ → Prop) (step : ∀ c, ok c → ∀ s t, rel s t → ∃ after,
      Returns (fun fuel => exec fuel c s) ((spec (stands c) t).1,after) ∧ rel after (spec (stands c) t).2)
    (calls : List γ) (all : ∀ c ∈ calls, ok c) {s : σ} {t : τ} (start : rel s t) : ∃ after,
    Returns (fun fuel => runAll (exec fuel) calls s) ((specAll spec (calls.map stands) t).1,after) ∧
      rel after (specAll spec (calls.map stands) t).2 := by
  obtain ⟨meant,after,along,run,last⟩ := runKeepsStep exec spec ok (fun _ => ()) (fun _ c d _ => d = stands c) rel
    (fun c inside s t related => by
      obtain ⟨after,first,next⟩ := step c inside s t related
      exact ⟨stands c,after,rfl,first,next⟩) calls all start
  have same := alongMap along
  exact ⟨after,same ▸ run,same ▸ last⟩

end Runs

structure Call (ι : Type) where
  array : ι
  write : Bool
  pos : Nat
  length : Nat
  buffer : Mem

structure Answer where
  moved : Nat
  buffer : Mem

variable {ι : Type} [DecidableEq ι]

def Call.on (c : Call ι) (arrays : ι → Mem) : Answer × (ι → Mem) :=
  if c.write then
    (⟨c.length,c.buffer⟩,Function.update arrays c.array (patch (arrays c.array) c.pos c.length c.buffer))
  else (⟨c.length,patch c.buffer 0 c.length (view (arrays c.array) c.pos)⟩,arrays)

def arraysAll (calls : List (Call ι)) (arrays : ι → Mem) : List Answer × (ι → Mem) := specAll Call.on calls arrays

/-! Arrays scattered over one memory: cell k of array i is at place i k. -/
section Scattered
variable {place : ι → Nat → Option Nat} {extent : ι → Nat}

def Placed (place : ι → Nat → Option Nat) (extent : ι → Nat) : Prop := ∀ i k, k < extent i → (place i k).isSome

def Unshared (place : ι → Nat → Option Nat) (extent : ι → Nat) (i : ι) (pos n : Nat) : Prop := ∀ k < n, ∀ j l a,
  l < extent j → place i (pos + k) = some a → place j l = some a → i = j ∧ pos + k = l

def arrayOf (place : ι → Nat → Option Nat) (m : Mem) (i : ι) : Mem := fun k => ((place i k).map m).getD 0

def Put (place : ι → Nat → Option Nat) (i : ι) (pos n : Nat) (bytes m after : Mem) : Prop :=
  ∀ a, (∃ k < n, place i (pos + k) = some a ∧ after a = bytes k) ∨
    ((∀ k < n, place i (pos + k) ≠ some a) ∧ after a = m a)

def Cell (place : ι → Nat → Option Nat) (extent : ι → Nat) (a : Nat) : Prop := ∃ i, ∃ k < extent i, place i k = some a

structure Holds (place : ι → Nat → Option Nat) (extent : ι → Nat) (start m : Mem) (arrays : ι → Mem) : Prop where
  cells : ∀ i k, k < extent i → arrayOf place m i k = arrays i k
  rest : ∀ a, ¬ Cell place extent a → m a = start a

omit [DecidableEq ι] in
theorem arrayAt {m : Mem} {i : ι} {k a : Nat} (here : place i k = some a) : arrayOf place m i k = m a := by
  rw [arrayOf,here]
  rfl

omit [DecidableEq ι] in
theorem holdsStart (m : Mem) : Holds place extent m m (arrayOf place m) := ⟨fun _ _ _ => rfl,fun _ _ => rfl⟩

theorem putHolds (placed : Placed place extent) {start m after : Mem} {arrays : ι → Mem}
    (holds : Holds place extent start m arrays) {i : ι} {pos n : Nat} {bytes : Mem} (inside : pos + n ≤ extent i)
    (unshared : Unshared place extent i pos n) (put : Put place i pos n bytes m after) :
    Holds place extent start after (Function.update arrays i (patch (arrays i) pos n bytes)) := by
  constructor
  · intro j l low
    obtain ⟨a,here⟩ := Option.isSome_iff_exists.mp (placed j l low)
    rw [arrayAt here]
    obtain ⟨k,below,there,stored⟩ | ⟨never,kept⟩ := put a
    · obtain ⟨rfl,rfl⟩ := unshared k below j l a low there here
      rw [stored,Function.update_self,patchInside (by omega) (by omega),Nat.add_sub_cancel_left]
    · rw [kept,← arrayAt (m := m) here,holds.cells j l low]
      by_cases same : j = i
      · subst same
        rw [Function.update_self]
        refine (patchOutside ?_).symm
        by_contra within
        exact never (l - pos) (by omega) (by rw [Nat.add_sub_cancel' (by omega)]; exact here)
      · rw [Function.update_of_ne same]
  · intro a none
    obtain ⟨k,below,there,_⟩ | ⟨_,kept⟩ := put a
    · exact absurd ⟨i,pos + k,by omega,there⟩ none
    · rw [kept,holds.rest a none]

end Scattered
end Kdrivers.ArrayStore
