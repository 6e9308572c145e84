import Kdrivers.Bytes

/-! The partition file and the allocator as the filesystem drivers use them. How many
bytes a transfer moves and what fresh memory holds are the environment's choice. -/
namespace Kdrivers.Vfs
open Bytes

/- grant k pos n is the most the k-th transfer moves of n bytes at pos, fresh k what
the k-th allocation returns, none for NULL. -/
structure Env where
  grant : Nat → Nat → Nat → Nat
  fresh : Nat → Option Mem

def Env.Full (env : Env) : Prop := ∀ k pos n, n ≤ env.grant k pos n

-- what can be moved depends on the place alone, as on a partition with an end
def Env.Stable (env : Env) : Prop := ∀ j k pos n, min n (env.grant j pos n) = min n (env.grant k pos n)

def Env.Allocates (env : Env) : Prop := ∀ k, (env.fresh k).isSome

theorem Env.Full.stable {env : Env} (full : env.Full) : env.Stable := by
  intro j k pos n
  rw [Nat.min_eq_left (full j pos n),Nat.min_eq_left (full k pos n)]

structure World where
  disk : Mem
  pos : Nat
  calls : Nat
  allocs : Nat

def vfsSeek (w : World) (pos : Nat) : World := { w with pos := pos }

def vfsRead (env : Env) (w : World) (buffer : Mem) (start n : Nat) : Nat × Mem × World :=
  let moved := min n (env.grant w.calls w.pos n)
  (moved,patch buffer start moved (view w.disk w.pos),
    { w with pos := w.pos + moved, calls := w.calls + 1 })

def vfsWrite (env : Env) (w : World) (buffer : Mem) (start n : Nat) : Nat × World :=
  let moved := min n (env.grant w.calls w.pos n)
  (moved,{ w with
    disk := patch w.disk w.pos moved (view buffer start)
    pos := w.pos + moved
    calls := w.calls + 1 })

def alloc (env : Env) (w : World) : Option Mem × World :=
  (env.fresh w.allocs,{ w with allocs := w.allocs + 1 })

@[simp] theorem seekDisk (w : World) (pos : Nat) : (vfsSeek w pos).disk = w.disk := rfl
@[simp] theorem seekPos (w : World) (pos : Nat) : (vfsSeek w pos).pos = pos := rfl
@[simp] theorem readDisk (env : Env) (w : World) (buffer : Mem) (start n : Nat) :
    (vfsRead env w buffer start n).2.2.disk = w.disk := rfl
@[simp] theorem allocDisk (env : Env) (w : World) : (alloc env w).2.disk = w.disk := rfl

theorem readFull {env : Env} (full : env.Full) (w : World) (buffer : Mem) (start n : Nat) :
    (vfsRead env w buffer start n).1 = n ∧
    (vfsRead env w buffer start n).2.1 = patch buffer start n (view w.disk w.pos) := by
  simp [vfsRead,Nat.min_eq_left (full _ _ _)]

theorem writeFull {env : Env} (full : env.Full) (w : World) (buffer : Mem) (start n : Nat) :
    (vfsWrite env w buffer start n).1 = n ∧
    (vfsWrite env w buffer start n).2.disk = patch w.disk w.pos n (view buffer start) := by
  simp [vfsWrite,Nat.min_eq_left (full _ _ _)]

end Kdrivers.Vfs
