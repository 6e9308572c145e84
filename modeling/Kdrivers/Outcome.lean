import Mathlib.Logic.Basic

/-! Results of imperative code: a value, an access the hardware or the language
forbids, or a loop still running when the turns given to it are spent. -/
namespace Kdrivers

inductive Fault where
  | nullPointer | divisionByZero | tableIndex
  deriving DecidableEq, Repr

inductive Outcome (α : Type) where
  | ret (a : α)
  | fault (f : Fault)
  | running
  deriving DecidableEq, Repr

namespace Outcome
variable {α β : Type}

protected def bind (x : Outcome α) (f : α → Outcome β) : Outcome β := match x with
  | .ret a => f a
  | .fault e => .fault e
  | .running => .running

instance : Monad Outcome where
  pure := .ret
  bind := Outcome.bind

@[simp] theorem retBind (a : α) (f : α → Outcome β) : ((.ret a : Outcome α) >>= f) = f a := rfl
@[simp] theorem faultBind (e : Fault) (f : α → Outcome β) : ((.fault e : Outcome α) >>= f) = .fault e := rfl
@[simp] theorem runningBind (f : α → Outcome β) : ((.running : Outcome α) >>= f) = .running := rfl

theorem bindRet {x : Outcome α} {f : α → Outcome β} {b : β} (ok : (x >>= f) = .ret b) :
    ∃ a, x = .ret a ∧ f a = .ret b := by
  cases x with
  | ret a => exact ⟨a,rfl,ok⟩
  | fault e => cases ok
  | running => cases ok

theorem bindAssoc {γ : Type} (x : Outcome α) (f : α → Outcome β) (g : β → Outcome γ) :
    (x >>= f) >>= g = x >>= fun y => f y >>= g := by cases x <;> rfl

def map (f : α → β) (x : Outcome α) : Outcome β := x >>= fun a => .ret (f a)

theorem mapFault {x : Outcome α} {f : α → β} {e : Fault} (failed : x.map f = .fault e) : x = .fault e := by
  cases x with
  | ret _ => cases failed
  | fault _ =>
    cases failed
    rfl
  | running => cases failed

def holds (p : α → Bool) : Outcome α → Bool
  | .ret a => p a
  | _ => false

theorem holdsRet {p : α → Bool} {x : Outcome α} (done : x.holds p = true) : ∃ a, x = .ret a ∧ p a = true := by
  cases x with
  | ret a => exact ⟨a,rfl,done⟩
  | fault e => cases done
  | running => cases done

end Outcome
end Kdrivers
