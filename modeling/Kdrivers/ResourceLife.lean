import Mathlib.Algebra.Group.Nat.Defs
import Mathlib.Data.List.Perm.Basic
import Mathlib.Data.List.Nodup
import Mathlib.Logic.Relation

/-! Resources that are initialized and uninitialized on several processors at once (resource.c),
with buffers as their driver (buffer.c): the memory that they hold and the ids they are given. -/
namespace Kdrivers.ResourceLife

structure Resource where
  block : Nat
  id : Nat
  state : Nat
  buffer : Option Nat
  deriving DecidableEq, Repr

-- numbered counts the increments of current_id
structure Kernel where
  heap : List Nat
  numbered : Nat

/- A call that has not returned: init_resource for a buffer of size bytes before its allocation,
before its increment and in buffer_init before either allocation, or with a driver that failed;
uninit_resource with its three blocks to free, two, or one. -/
inductive Task where
  | starting (size : Nat)
  | allocated (size block : Nat)
  | numbered (size block id : Nat)
  | stated (size block id state : Nat)
  | failed (block : Nat)
  | stopping (r : Resource)
  | emptied (block state : Nat)
  | stopped (block : Nat)
  deriving DecidableEq, Repr

inductive After where
  | task (t : Task)
  | resource (r : Resource)
  | nothing

inductive Turn where
  | goes (after : After) (k : Kernel)
  | nullPointer
  | badFree

def Kernel.take (k : Kernel) (block : Nat) : Kernel := { k with heap := block::k.heap }

def Kernel.free (k : Kernel) (block : Nat) (after : After) : Turn :=
  if block ∈ k.heap then .goes after { k with heap := k.heap.erase block } else .badFree

/- What a processor does next. given is the answer of the allocator, if it is asked. The buffer
is cleared without a look at that answer, which is no access where it has no bytes. -/
def Task.turn (k : Kernel) (given : Option Nat) : Task → Turn
  | .starting size => match given with
    | none => .goes .nothing k
    | some block => .goes (.task (.allocated size block)) (k.take block)
  | .allocated size block =>
    .goes (.task (.numbered size block (k.numbered % 2^64))) { k with numbered := k.numbered + 1 }
  | .numbered size block id => match given with
    | none => .goes (.task (.failed block)) k
    | some state => .goes (.task (.stated size block id state)) (k.take state)
  | .stated size block id state => match given with
    | none => if size = 0 then .goes (.resource ⟨block,id,state,none⟩) k else .nullPointer
    | some buffer => .goes (.resource ⟨block,id,state,some buffer⟩) (k.take buffer)
  | .failed block => k.free block .nothing
  | .stopping r => match r.buffer with
    | none => .goes (.task (.emptied r.block r.state)) k
    | some buffer => k.free buffer (.task (.emptied r.block r.state))
  | .emptied block state => k.free state (.task (.stopped block))
  | .stopped block => k.free block .nothing

structure System where
  kernel : Kernel
  tasks : List Task
  resources : List Resource

def After.tasks : After → List Task
  | .task t => [t]
  | _ => []

def After.resources : After → List Resource
  | .resource r => [r]
  | _ => []

inductive Event where
  | init (size : Nat)
  | uninit (r : Resource)
  | turn (t : Task) (given : Option Nat)

inductive Step : Event → System → System → Prop where
  | init {s : System} (size : Nat) : Step (.init size) s { s with tasks := .starting size::s.tasks }
  | uninit {s : System} (r : Resource) :
      Step (.uninit r) s { s with tasks := .stopping r::s.tasks, resources := s.resources.erase r }
  | turn {s : System} {t : Task} {given : Option Nat} {after : After} {k : Kernel} (running : t ∈ s.tasks)
      (fresh : ∀ block, given = some block → block ∉ s.kernel.heap) (goes : t.turn s.kernel given = .goes after k) :
      Step (.turn t given) s ⟨k,after.tasks ++ s.tasks.erase t,after.resources ++ s.resources⟩

/- The rule that the callers keep: each resource is given back by one of them, once. -/
def Owned (s : System) : Event → Prop
  | .uninit r => r ∈ s.resources
  | _ => True

def OwnedStep (s t : System) : Prop := ∃ e, Step e s t ∧ Owned s e

def empty : System := ⟨⟨[],0⟩,[],[]⟩

def Resource.blocks (r : Resource) : List Nat := r.buffer.toList ++ [r.state,r.block]

def Task.blocks : Task → List Nat
  | .starting _ => []
  | .allocated _ block => [block]
  | .numbered _ block _ => [block]
  | .stated _ block _ state => [state,block]
  | .failed block => [block]
  | .stopping r => r.blocks
  | .emptied block state => [state,block]
  | .stopped block => [block]

def Task.ids : Task → List Nat
  | .numbered _ _ id => [id]
  | .stated _ _ id _ => [id]
  | .stopping r => [r.id]
  | _ => []

def After.blocks (a : After) : List Nat := a.tasks.flatMap Task.blocks ++ a.resources.flatMap Resource.blocks
def After.ids (a : After) : List Nat := a.tasks.flatMap Task.ids ++ a.resources.map Resource.id

def System.blocks (s : System) : List Nat := s.tasks.flatMap Task.blocks ++ s.resources.flatMap Resource.blocks
def System.ids (s : System) : List Nat := s.tasks.flatMap Task.ids ++ s.resources.map Resource.id

structure Ledger (s : System) : Prop where
  held : s.kernel.heap.Perm s.blocks
  once : s.kernel.heap.Nodup
  ids : s.kernel.numbered ≤ 2^64 → s.ids.Nodup ∧ ∀ id ∈ s.ids, id < s.kernel.numbered

theorem emptyLedger : Ledger empty := ⟨.refl _,List.nodup_nil,fun _ => ⟨List.nodup_nil,nofun⟩⟩

inductive Moves (k k' : Kernel) (before after : List Nat) : Prop where
  | none (heap : k'.heap = k.heap) (same : after.Perm before)
  | took (block : Nat) (new : block ∉ k.heap) (heap : k'.heap = block::k.heap) (more : after.Perm (block::before))
  | gave (block : Nat) (heap : k'.heap = k.heap.erase block) (less : before.Perm (block::after))

inductive Numbers (k k' : Kernel) (before after : List Nat) : Prop where
  | none (same : k'.numbered = k.numbered) (less : after.Sublist before)
  | one (next : k'.numbered = k.numbered + 1) (before : before = []) (after : after = [k.numbered % 2^64])

theorem freeGoes {k k' : Kernel} {block : Nat} {after after' : After} (goes : k.free block after = .goes after' k') :
    after' = after ∧ k' = { k with heap := k.heap.erase block } := by
  unfold Kernel.free at goes
  split at goes
  · cases goes
    exact ⟨rfl,rfl⟩
  · cases goes

theorem freeMoves {k k' : Kernel} {block : Nat} {rest : List Nat} {after : After}
    (goes : k.free block after = .goes after k') (held : after.blocks = rest) :
    Moves k k' (block::rest) after.blocks := by
  obtain ⟨_,rfl⟩ := freeGoes goes
  exact .gave block rfl (held ▸ .refl _)

theorem turnSpec {k k' : Kernel} {t : Task} {given : Option Nat} {after : After}
    (fresh : ∀ block, given = some block → block ∉ k.heap) (goes : t.turn k given = .goes after k') :
    Moves k k' t.blocks after.blocks ∧ Numbers k k' t.ids after.ids := by
  have quiet {block : Nat} {next : After} (go : k.free block next = .goes after k') (less : next.ids.Sublist t.ids) :
      Numbers k k' t.ids after.ids := by
    obtain ⟨rfl,rfl⟩ := freeGoes go
    exact .none rfl less
  cases t with
  | starting size =>
    cases given with
    | none =>
      cases goes
      exact ⟨.none rfl (.refl _),.none rfl (.refl _)⟩
    | some block =>
      cases goes
      exact ⟨.took block (fresh block rfl) rfl (.refl _),.none rfl (.refl _)⟩
  | allocated size block =>
    cases goes
    exact ⟨.none rfl (.refl _),.one rfl rfl rfl⟩
  | numbered size block id =>
    cases given with
    | none =>
      cases goes
      exact ⟨.none rfl (.refl _),.none rfl (List.nil_sublist _)⟩
    | some state =>
      cases goes
      exact ⟨.took state (fresh state rfl) rfl (.refl _),.none rfl (.refl _)⟩
  | stated size block id state =>
    cases given with
    | none =>
      unfold Task.turn at goes
      dsimp only at goes
      split at goes
      · cases goes
        exact ⟨.none rfl (.refl _),.none rfl (.refl _)⟩
      · cases goes
    | some buffer =>
      cases goes
      exact ⟨.took buffer (fresh buffer rfl) rfl (.refl _),.none rfl (.refl _)⟩
  | failed block =>
    refine ⟨?_,quiet goes (.refl _)⟩
    obtain ⟨rfl,_⟩ := freeGoes goes
    exact freeMoves goes rfl
  | stopping r =>
    obtain ⟨block,id,state,buffer⟩ := r
    cases buffer with
    | none =>
      cases goes
      exact ⟨.none rfl (.refl _),.none rfl (List.nil_sublist _)⟩
    | some buffer =>
      refine ⟨?_,quiet goes (List.nil_sublist _)⟩
      obtain ⟨rfl,_⟩ := freeGoes goes
      exact freeMoves goes rfl
  | emptied block state =>
    refine ⟨?_,quiet goes (.refl _)⟩
    obtain ⟨rfl,_⟩ := freeGoes goes
    exact freeMoves goes rfl
  | stopped block =>
    refine ⟨?_,quiet goes (.refl _)⟩
    obtain ⟨rfl,_⟩ := freeGoes goes
    exact freeMoves goes rfl

section
variable {s : System}

theorem blocksApart {t : Task} (running : t ∈ s.tasks) : s.blocks.Perm
    (t.blocks ++ ((s.tasks.erase t).flatMap Task.blocks ++ s.resources.flatMap Resource.blocks)) := by
  have split := (List.perm_cons_erase running).flatMap_right Task.blocks
  rw [List.flatMap_cons] at split
  rw [← List.append_assoc]
  exact split.append_right _

theorem idsApart {t : Task} (running : t ∈ s.tasks) : s.ids.Perm
    (t.ids ++ ((s.tasks.erase t).flatMap Task.ids ++ s.resources.map Resource.id)) := by
  have split := (List.perm_cons_erase running).flatMap_right Task.ids
  rw [List.flatMap_cons] at split
  rw [← List.append_assoc]
  exact split.append_right _

theorem blocksAfter (k : Kernel) (t : Task) (after : After) :
    (System.blocks ⟨k,after.tasks ++ s.tasks.erase t,after.resources ++ s.resources⟩).Perm
      (after.blocks ++ ((s.tasks.erase t).flatMap Task.blocks ++ s.resources.flatMap Resource.blocks)) := by
  unfold System.blocks After.blocks
  dsimp only
  rw [List.flatMap_append,List.flatMap_append,List.append_assoc,List.append_assoc]
  refine List.Perm.append_left _ ?_
  rw [← List.append_assoc,← List.append_assoc]
  exact List.perm_append_comm.append_right _

theorem idsAfter (k : Kernel) (t : Task) (after : After) :
    (System.ids ⟨k,after.tasks ++ s.tasks.erase t,after.resources ++ s.resources⟩).Perm
      (after.ids ++ ((s.tasks.erase t).flatMap Task.ids ++ s.resources.map Resource.id)) := by
  unfold System.ids After.ids
  dsimp only
  rw [List.flatMap_append,List.map_append,List.append_assoc,List.append_assoc]
  refine List.Perm.append_left _ ?_
  rw [← List.append_assoc,← List.append_assoc]
  exact List.perm_append_comm.append_right _

theorem movesHeld {k k' : Kernel} {before after rest : List Nat} (moves : Moves k k' before after)
    (held : k.heap.Perm (before ++ rest)) (once : k.heap.Nodup) : k'.heap.Perm (after ++ rest) ∧ k'.heap.Nodup := by
  cases moves with
  | none heap same =>
    rw [heap]
    exact ⟨held.trans (same.symm.append_right rest),once⟩
  | took block new heap more =>
    rw [heap]
    exact ⟨(held.cons block).trans (more.symm.append_right rest),List.nodup_cons.mpr ⟨new,once⟩⟩
  | gave block heap less =>
    rw [heap]
    have whole := held.trans (less.append_right rest)
    refine ⟨?_,once.erase block⟩
    have fewer := whole.erase block
    rwa [List.cons_append,List.erase_cons_head] at fewer

theorem numbersGiven {k k' : Kernel} {before after rest : List Nat} (numbers : Numbers k k' before after)
    (given : k.numbered ≤ 2^64 → (before ++ rest).Nodup ∧ ∀ id ∈ before ++ rest, id < k.numbered)
    (few : k'.numbered ≤ 2^64) : (after ++ rest).Nodup ∧ ∀ id ∈ after ++ rest, id < k'.numbered := by
  cases numbers with
  | none same less =>
    rw [same] at few ⊢
    obtain ⟨once,low⟩ := given few
    have sub := less.append_right rest
    exact ⟨once.sublist sub,fun id mem => low id (sub.subset mem)⟩
  | one next none own =>
    rw [next] at few ⊢
    obtain ⟨once,low⟩ := given (by omega)
    rw [none,List.nil_append] at once low
    rw [own,Nat.mod_eq_of_lt (by omega),List.singleton_append]
    refine ⟨List.nodup_cons.mpr ⟨fun mem => Nat.lt_irrefl _ (low _ mem),once⟩,fun id mem => ?_⟩
    obtain rfl | old := List.mem_cons.mp mem
    · exact Nat.lt_succ_self _
    · exact Nat.lt_succ_of_lt (low id old)

theorem stepLedger {t : System} (ledger : Ledger s) (step : OwnedStep s t) : Ledger t := by
  obtain ⟨e,step,owned⟩ := step
  cases step with
  | init => exact ⟨ledger.held,ledger.once,ledger.ids⟩
  | uninit r =>
    have live : r ∈ s.resources := owned
    have blocks : s.blocks.Perm (System.blocks { s with tasks := .stopping r::s.tasks, resources := s.resources.erase r }) := by
      have split := (List.perm_cons_erase live).flatMap_right Resource.blocks
      rw [List.flatMap_cons] at split
      refine (split.append_left _).trans ?_
      unfold System.blocks
      rw [List.flatMap_cons,← List.append_assoc]
      exact List.perm_append_comm.append_right _
    have ids : s.ids.Perm (System.ids { s with tasks := .stopping r::s.tasks, resources := s.resources.erase r }) := by
      have split := (List.perm_cons_erase live).map Resource.id
      rw [List.map_cons] at split
      exact (split.append_left _).trans List.perm_middle
    refine ⟨ledger.held.trans blocks,ledger.once,fun few => ?_⟩
    obtain ⟨once,low⟩ := ledger.ids few
    exact ⟨ids.nodup_iff.mp once,fun id mem => low id (ids.mem_iff.mpr mem)⟩
  | @turn _ t given after k running fresh goes =>
    obtain ⟨moves,numbers⟩ := turnSpec fresh goes
    obtain ⟨held,once⟩ := movesHeld moves (ledger.held.trans (blocksApart running)) ledger.once
    refine ⟨held.trans (blocksAfter k t after).symm,once,fun few => ?_⟩
    have before := idsApart running
    have later := idsAfter (s := s) k t after
    obtain ⟨distinct,low⟩ := numbersGiven numbers (fun few => by
      obtain ⟨once,low⟩ := ledger.ids few
      exact ⟨before.nodup_iff.mp once,fun id mem => low id (before.mem_iff.mpr mem)⟩) few
    exact ⟨later.nodup_iff.mpr distinct,fun id mem => low id (later.mem_iff.mp mem)⟩

theorem freeHeld (ledger : Ledger s) {t : Task} (running : t ∈ s.tasks) (given : Option Nat) :
    t.turn s.kernel given ≠ .badFree := by
  have held (block : Nat) (own : block ∈ t.blocks) : block ∈ s.kernel.heap :=
    ledger.held.mem_iff.mpr ((blocksApart running).mem_iff.mpr (List.mem_append_left _ own))
  have frees (block : Nat) (after : After) (own : block ∈ t.blocks) : s.kernel.free block after ≠ .badFree := by
    rw [Kernel.free,if_pos (held block own)]
    exact nofun
  cases t with
  | starting size => cases given <;> exact nofun
  | allocated size block => exact nofun
  | numbered size block id => cases given <;> exact nofun
  | stated size block id state =>
    cases given with
    | none =>
      unfold Task.turn
      dsimp only
      split <;> exact nofun
    | some buffer => exact nofun
  | failed block => exact frees block _ (by simp [Task.blocks])
  | stopping r =>
    obtain ⟨block,id,state,buffer⟩ := r
    cases buffer with
    | none => exact nofun
    | some buffer => exact frees buffer _ (by simp [Task.blocks,Resource.blocks])
  | emptied block state => exact frees state _ (by simp [Task.blocks])
  | stopped block => exact frees block _ (by simp [Task.blocks])

theorem turnNull {k : Kernel} {t : Task} {given : Option Nat} (faults : t.turn k given = .nullPointer) :
    given = none ∧ ∃ size block id state, t = .stated size block id state ∧ size ≠ 0 := by
  have frees (block : Nat) (after : After) : k.free block after ≠ .nullPointer := by
    unfold Kernel.free
    split <;> exact nofun
  cases t with
  | starting size => cases given <;> cases faults
  | allocated size block => cases faults
  | numbered size block id => cases given <;> cases faults
  | stated size block id state =>
    cases given with
    | none =>
      refine ⟨rfl,size,block,id,state,rfl,fun zero => ?_⟩
      rw [Task.turn,if_pos zero] at faults
      cases faults
    | some buffer => cases faults
  | failed block => exact absurd faults (frees _ _)
  | stopping r =>
    obtain ⟨block,id,state,buffer⟩ := r
    cases buffer with
    | none => cases faults
    | some buffer => exact absurd faults (frees _ _)
  | emptied block state => exact absurd faults (frees _ _)
  | stopped block => exact absurd faults (frees _ _)

end

/-- However calls on any number of processors are interleaved and whichever allocations fail,
as long as each resource is given back once, no block is freed twice or that nobody holds, the
blocks in use are exactly those of live resources and of calls under way, each held once, and no
two resources have one id before 2^64 of them were numbered. The only access through NULL is to
the bytes of a buffer that could not be allocated. -/
theorem resourcesOwn {s : System} (reach : Relation.ReflTransGen OwnedStep empty s) :
    (∀ t ∈ s.tasks, ∀ given, t.turn s.kernel given ≠ .badFree ∧ (t.turn s.kernel given = .nullPointer →
      given = none ∧ ∃ size block id state, t = .stated size block id state ∧ size ≠ 0)) ∧
      s.kernel.heap.Perm s.blocks ∧ s.kernel.heap.Nodup ∧
      (s.kernel.numbered ≤ 2^64 → (s.resources.map Resource.id).Nodup) := by
  have ledger : Ledger s := by
    induction reach with
    | refl => exact emptyLedger
    | tail _ step ih => exact stepLedger ih step
  exact ⟨fun t running given => ⟨freeHeld ledger running given,turnNull⟩,ledger.held,ledger.once,
    fun few => (ledger.ids few).1.sublist (List.sublist_append_right _ _)⟩

def stoppingOne : System := ⟨⟨[3,2,1],1⟩,[.stopping ⟨1,0,2,some 3⟩,.starting 0],[]⟩

theorem resourcesOwnStopping : (∀ t ∈ stoppingOne.tasks, ∀ given, t.turn stoppingOne.kernel given ≠ .badFree) ∧
    stoppingOne.kernel.heap.Perm stoppingOne.blocks := by
  have begun : Relation.ReflTransGen OwnedStep empty ⟨⟨[],0⟩,[.starting 9],[]⟩ := .single ⟨_,.init 9,trivial⟩
  have other : Relation.ReflTransGen OwnedStep empty ⟨⟨[],0⟩,[.starting 0,.starting 9],[]⟩ :=
    begun.tail ⟨_,.init 0,trivial⟩
  have made : Relation.ReflTransGen OwnedStep empty ⟨⟨[1],0⟩,[.allocated 9 1,.starting 0],[]⟩ :=
    other.tail ⟨_,@Step.turn _ (.starting 9) (some 1) _ _ (by decide) (by decide) rfl,trivial⟩
  have given : Relation.ReflTransGen OwnedStep empty ⟨⟨[1],1⟩,[.numbered 9 1 0,.starting 0],[]⟩ :=
    made.tail ⟨_,@Step.turn _ (.allocated 9 1) none _ _ (by decide) (by decide) rfl,trivial⟩
  have held : Relation.ReflTransGen OwnedStep empty ⟨⟨[2,1],1⟩,[.stated 9 1 0 2,.starting 0],[]⟩ :=
    given.tail ⟨_,@Step.turn _ (.numbered 9 1 0) (some 2) _ _ (by decide) (by decide) rfl,trivial⟩
  have live : Relation.ReflTransGen OwnedStep empty ⟨⟨[3,2,1],1⟩,[.starting 0],[⟨1,0,2,some 3⟩]⟩ :=
    held.tail ⟨_,@Step.turn _ (.stated 9 1 0 2) (some 3) _ _ (by decide) (by decide) rfl,trivial⟩
  have owned : Owned ⟨⟨[3,2,1],1⟩,[.starting 0],[⟨1,0,2,some 3⟩]⟩ (.uninit ⟨1,0,2,some 3⟩) := List.mem_cons_self
  obtain ⟨frees,blocks,_⟩ := resourcesOwn (live.tail ⟨_,.uninit ⟨1,0,2,some 3⟩,owned⟩ :
    Relation.ReflTransGen OwnedStep empty stoppingOne)
  exact ⟨fun t running given => (frees t running given).1,blocks⟩

end Kdrivers.ResourceLife
