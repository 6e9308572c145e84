import Mathlib.Logic.Relation
import Mathlib.Logic.Function.Basic

/-! Processes that access one store in turns, each access answered before the process goes
on. What they do is what they would do alone, as long as none changes cells of another. -/
namespace Kdrivers.Processes

inductive Process (κ π ρ : Type) where
  | done (r : ρ)
  | access (request : κ) (next : π → Process κ π ρ)

/- How requests are served. γ is what the store chooses by itself. A served request depends on
the cells it looks at or changes, and changes no others. -/
structure Service (κ π γ α β : Type) where
  serve : κ → γ → (α → β) → π × (α → β)
  looks : κ → α → Prop
  changes : κ → α → Prop
  kept : ∀ q c s x, ¬ changes q x → (serve q c s).2 x = s x
  same : ∀ q c s t, (∀ x, looks q x ∨ changes q x → s x = t x) → (serve q c s).1 = (serve q c t).1 ∧
    ∀ x, changes q x → (serve q c s).2 x = (serve q c t).2 x

variable {κ π γ α β ρ ι : Type} (service : Service κ π γ α β)

def alone : List γ → Process κ π ρ → (α → β) → Process κ π ρ × (α → β)
  | [],p,s => (p,s)
  | _::_,.done r,s => (.done r,s)
  | c::cs,.access q next,s => alone cs (next (service.serve q c s).1) (service.serve q c s).2

structure Shared (κ π γ α β ρ ι : Type) where
  store : α → β
  processes : ι → Process κ π ρ
  choices : ι → List γ

def start (store : α → β) (processes : ι → Process κ π ρ) : Shared κ π γ α β ρ ι := ⟨store,processes,fun _ => []⟩

inductive Turn [DecidableEq ι] (s : Shared κ π γ α β ρ ι) : Shared κ π γ α β ρ ι → Prop where
  | serve {i : ι} {q : κ} {next : π → Process κ π ρ} (c : γ) (own : s.processes i = .access q next) :
      Turn s ⟨(service.serve q c s.store).2,Function.update s.processes i (next (service.serve q c s.store).1),
        Function.update s.choices i (s.choices i ++ [c])⟩

inductive Confined (looks changes : α → Prop) : Process κ π ρ → Prop where
  | done (r : ρ) : Confined looks changes (.done r)
  | access {q : κ} {next : π → Process κ π ρ} (seen : ∀ x, service.looks q x → looks x)
      (changed : ∀ x, service.changes q x → changes x) (rest : ∀ r, Confined looks changes (next r)) :
      Confined looks changes (.access q next)

variable {service}

theorem aloneDone (cs : List γ) (r : ρ) (s : α → β) : alone service cs (.done r) s = (.done r,s) := by
  cases cs <;> rfl

theorem aloneSnoc {cs : List γ} {p : Process κ π ρ} {s t : α → β} {q : κ} {next : π → Process κ π ρ}
    (reached : alone service cs p s = (.access q next,t)) (c : γ) :
    alone service (cs ++ [c]) p s = (next (service.serve q c t).1,(service.serve q c t).2) := by
  induction cs generalizing p s with
  | nil =>
    cases reached
    rfl
  | cons d cs ih =>
    cases p with
    | done r => cases reached
    | access q' next' => exact ih reached

variable (service) in
theorem finishes (c : γ) (p : Process κ π ρ) (s : α → β) : ∃ n r t, alone service (List.replicate n c) p s = (.done r,t) := by
  induction p generalizing s with
  | done r => exact ⟨0,r,s,rfl⟩
  | access q next ih =>
    obtain ⟨n,r,t,run⟩ := ih (service.serve q c s).1 (service.serve q c s).2
    exact ⟨n + 1,r,t,run⟩

theorem turnsAlone [DecidableEq ι] {s : Shared κ π γ α β ρ ι} {i : ι} {cs : List γ} {p now : Process κ π ρ} {t : α → β}
    (own : s.processes i = p) (run : alone service cs p s.store = (now,t)) :
    ∃ choices, Relation.ReflTransGen (Turn service) s ⟨t,Function.update s.processes i now,choices⟩ := by
  induction cs generalizing s p with
  | nil =>
    cases run
    rw [← own,Function.update_eq_self]
    exact ⟨s.choices,.refl⟩
  | cons c cs ih =>
    cases p with
    | done r =>
      cases run
      rw [← own,Function.update_eq_self]
      exact ⟨s.choices,.refl⟩
    | access q next =>
      have first : Turn service s _ := .serve c own
      obtain ⟨choices,rest⟩ := ih (s := ⟨(service.serve q c s.store).2,
        Function.update s.processes i (next (service.serve q c s.store).1),
        Function.update s.choices i (s.choices i ++ [c])⟩) (Function.update_self ..) run
      rw [Function.update_idem] at rest
      exact ⟨choices,.head first rest⟩

variable (service) in
structure Follows (looks changes : α → Prop) (first : α → β) (p : Process κ π ρ) (cs : List γ) (now : Process κ π ρ)
    (store : α → β) : Prop where
  process : (alone service cs p first).1 = now
  cells : ∀ x, looks x ∨ changes x → (alone service cs p first).2 x = store x
  confined : Confined service looks changes now

section
variable {looks changes : α → Prop} {first store : α → β} {p now : Process κ π ρ} {cs : List γ}

theorem followsOwn {q : κ} {next : π → Process κ π ρ}
    (follows : Follows service looks changes first p cs (.access q next) store) (c : γ) :
    Follows service looks changes first p (cs ++ [c]) (next (service.serve q c store).1)
      (service.serve q c store).2 := by
  obtain ⟨process,cells,confined⟩ := follows
  generalize reached : alone service cs p first = a at process cells
  obtain ⟨q',t⟩ := a
  dsimp only at process cells
  subst process
  cases confined with
  | access seen changed rest =>
    obtain ⟨answer,stored⟩ := service.same q c t store fun x own => cells x (own.imp (seen x) (changed x))
    have last := aloneSnoc reached c
    refine ⟨?_,fun x mine => ?_,rest _⟩
    · rw [last,answer]
    · rw [last]
      by_cases here : service.changes q x
      · exact stored x here
      · exact (service.kept q c t x here).trans ((cells x mine).trans (service.kept q c store x here).symm)

theorem followsOther (follows : Follows service looks changes first p cs now store) {after : α → β}
    (kept : ∀ x, looks x ∨ changes x → after x = store x) :
    Follows service looks changes first p cs now after :=
  ⟨follows.process,fun x mine => (follows.cells x mine).trans (kept x mine).symm,follows.confined⟩

end

variable [DecidableEq ι] {looks changes : ι → α → Prop}

def Apart (looks changes : ι → α → Prop) : Prop := ∀ i j, i ≠ j → ∀ x, changes i x → ¬ (looks j x ∨ changes j x)

/-- In any interleaving every process gets as far, with the same answers and the same cells,
as alone from the first store with the choices that were made for it, and what nobody
changes stays. -/
theorem turnsApart (apart : Apart looks changes) {store : α → β} {processes : ι → Process κ π ρ}
    (confined : ∀ i, Confined service (looks i) (changes i) (processes i)) {t : Shared κ π γ α β ρ ι}
    (run : Relation.ReflTransGen (Turn service) (start store processes) t) :
    (∀ i, Follows service (looks i) (changes i) store (processes i) (t.choices i) (t.processes i) t.store) ∧
      ∀ x, (∀ i, ¬ changes i x) → t.store x = store x := by
  induction run with
  | refl => exact ⟨fun i => ⟨rfl,fun _ _ => rfl,confined i⟩,fun _ _ => rfl⟩
  | @tail u v _ go ih =>
    obtain ⟨each,rest⟩ := ih
    cases go with
    | @serve i q next c own =>
      have mine := each i
      rw [own] at mine
      have within : ∀ x, service.changes q x → changes i x := by
        cases mine.confined with
        | access _ changed _ => exact changed
      refine ⟨fun j => ?_,fun x none => ?_⟩
      · by_cases same : j = i
        · subst same
          dsimp only
          rw [Function.update_self,Function.update_self]
          exact followsOwn mine c
        · dsimp only
          rw [Function.update_of_ne same,Function.update_of_ne same]
          refine followsOther (each j) fun x cells => service.kept q c u.store x fun changed => ?_
          exact apart i j (Ne.symm same) x (within x changed) cells
      · exact (service.kept q c u.store x fun changed => none i (within x changed)).trans (rest x none)

end Kdrivers.Processes
