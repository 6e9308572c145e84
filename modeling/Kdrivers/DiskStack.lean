import Kdrivers.NvmeStore
import Kdrivers.Vfs

/-! The partition file of the filesystem drivers on a partition of an NVMe namespace: what
the drivers below do is what the filesystem takes a partition to do. -/
namespace Kdrivers.DiskStack
open Bytes NvmeNamespace NvmeRead ArrayStore NvmeStore Vfs
open PartitionDummy (PartitionState)

structure DiskOp where
  write : Bool
  pos : Nat
  n : Nat
  start : Nat
  buffer : Mem

def DiskOp.onWorld (env : Env) (op : DiskOp) (world : World) : Answer × World :=
  let world := vfsSeek world op.pos
  if op.write then
    let (n,world) := vfsWrite env world op.buffer op.start op.n
    (⟨n,op.buffer⟩,world)
  else
    let (n,buffer,world) := vfsRead env world op.buffer op.start op.n
    (⟨n,buffer⟩,world)

def DiskOp.call (op : DiskOp) : DriveCall Unit := ⟨(),op.write,1,op.n,op.pos,view op.buffer op.start⟩

def DiskOp.onDrive (a : Align) (port : Port) (drive : NamespaceState) (state : PartitionState) (fuel : Nat) (op : DiskOp)
    (dev : Device) : Outcome (Answer × Device) :=
  (op.call.run a port drive (fun _ => state) fuel dev).map fun (answer,dev) =>
    (⟨answer.moved,if op.write then op.buffer else patch op.buffer op.start answer.moved answer.buffer⟩,dev)

def base (state : PartitionState) : Nat := state.startLba * state.lbaSize
def length (state : PartitionState) : Nat := state.sizeInLbas * state.lbaSize

structure Shows (state : PartitionState) (first : Mem) (dev : Device) (world : World) : Prop where
  bytes : ∀ k < length state, world.disk k = dev.bytes (base state + k)
  rest : ∀ k, k < base state ∨ base state + length state ≤ k → dev.bytes k = first k

structure DiskOp.Inside (drive : NamespaceState) (state : PartitionState) (op : DiskOp) : Prop where
  range : op.pos + op.n ≤ length state
  part : op.write = true → (base state + op.pos) % drive.lbaSize ≠ 0 ∨ op.n < pageSize

def moving (fresh : Nat → Option Mem) (n : Nat) : Env := ⟨fun _ _ _ => n,fresh⟩

def Moved (port : Port) (drive : NamespaceState) (state : PartitionState) (issued : Nat) (op : DiskOp) (d : DiskOp × Nat)
    (after : Nat) : Prop :=
  d.1 = op ∧ ∃ turns commands, Ends port drive op.write (base state + op.pos) op.n issued after d.2 turns commands

section
variable {a : Align} {port : Port} {drive : NamespaceState} {state : PartitionState}

theorem callInside {op : DiskOp} (inside : op.Inside drive state) : op.call.Inside drive fun _ => state := by
  refine ⟨?_,fun write => (inside.part write).imp_right fun less => ?_⟩
  · change op.pos + 1 * op.n ≤ _
    rw [Nat.one_mul]
    exact inside.range
  · change 1 * op.n < pageSize
    rwa [Nat.one_mul]

theorem worldWrites (fresh : Nat → Option Mem) {op : DiskOp} (write : op.write = true) {n : Nat} (few : n ≤ op.n)
    (world : World) : (op.onWorld (moving fresh n) world).1 = ⟨n,op.buffer⟩ ∧
      (op.onWorld (moving fresh n) world).2.disk = patch world.disk op.pos n (view op.buffer op.start) := by
  rw [DiskOp.onWorld,if_pos write]
  simp only [vfsWrite,moving,vfsSeek,Nat.min_eq_right few,and_self]

theorem worldReads (fresh : Nat → Option Mem) {op : DiskOp} (read : op.write = false) {n : Nat} (few : n ≤ op.n)
    (world : World) : (op.onWorld (moving fresh n) world).1 = ⟨n,patch op.buffer op.start n (view world.disk op.pos)⟩ ∧
      (op.onWorld (moving fresh n) world).2.disk = world.disk := by
  rw [DiskOp.onWorld,if_neg (by simp [read])]
  simp only [vfsRead,moving,vfsSeek,Nat.min_eq_right few,and_self]

theorem showsWritten {first : Mem} {dev after : Device} {world now : World} (shows : Shows state first dev world)
    {pos n : Nat} {bytes : Mem} (inside : pos + n ≤ length state)
    (below : after.bytes = patch dev.bytes (base state + pos) n bytes) (above : now.disk = patch world.disk pos n bytes) :
    Shows state first after now := by
  constructor
  · intro k low
    rw [below,above]
    by_cases there : pos ≤ k ∧ k < pos + n
    · rw [patchInside there.1 there.2,patchInside (by omega) (by omega)]
      exact congrArg _ (by omega)
    · rw [patchOutside (by omega),patchOutside (by omega)]
      exact shows.bytes k low
  · intro k outside
    rw [below,patchOutside (by omega)]
    exact shows.rest k outside

theorem opStep (d : Drive port drive fun _ : Unit => state) (fresh : Nat → Option Mem) {first : Mem} {dev : Device}
    {world : World} (shows : Shows state first dev world) {op : DiskOp} (inside : op.Inside drive state) :
    ∃ n after, Moved port drive state dev.issued.length op (op,n) after.issued.length ∧
      Returns (fun fuel => op.onDrive a port drive state fuel dev) ((op.onWorld (moving fresh n) world).1,after) ∧
      Shows state first after (op.onWorld (moving fresh n) world).2 := by
  have range := inside.range
  have asked : op.call.size * op.call.count = op.n := Nat.one_mul op.n
  cases write : op.write with
  | true =>
    obtain ⟨n,after,turns,commands,run,bytes,ends⟩ := writesCall (a := a) d (callInside inside) write dev
    rw [asked] at ends
    change after.bytes = patch dev.bytes (base state + op.pos) n (view op.buffer op.start) at bytes
    have few := ends.few
    obtain ⟨answer,disk⟩ := worldWrites fresh write few world
    refine ⟨n,after,⟨rfl,turns,commands,ends⟩,?_,showsWritten shows (by omega) bytes disk⟩
    rw [answer]
    have mapped := returnsMap (fun r : Answer × Device =>
      ((⟨r.1.moved,if op.write then op.buffer else patch op.buffer op.start r.1.moved r.1.buffer⟩,r.2) : Answer × Device)) run
    rw [if_pos write] at mapped
    exact mapped
  | false =>
    obtain ⟨n,after,turns,commands,run,kept,ends⟩ := readsCall (a := a) d (callInside inside) write dev
    rw [asked] at ends
    have few := ends.few
    obtain ⟨answer,disk⟩ := worldReads fresh write few world
    refine ⟨n,after,⟨rfl,turns,commands,ends⟩,?_,?_⟩
    · rw [answer]
      have mapped := returnsMap (fun r : Answer × Device =>
        ((⟨r.1.moved,if op.write then op.buffer else patch op.buffer op.start r.1.moved r.1.buffer⟩,r.2) : Answer × Device)) run
      have bytes : patch op.buffer op.start n (patch op.call.buffer 0 n (view dev.bytes (base state + op.pos))) =
          patch op.buffer op.start n (view world.disk op.pos) := by
        refine patchCongr fun k low => ?_
        rw [patchInside (Nat.zero_le k) (by omega),viewApply,viewApply,Nat.sub_zero,shows.bytes _ (by omega),Nat.add_assoc]
      rw [if_neg (by simp [write])] at mapped
      rw [← bytes]
      exact mapped
    · exact ⟨fun k low => by rw [disk,kept]; exact shows.bytes k low,fun k outside => by rw [kept]; exact shows.rest k outside⟩

theorem environmentJoins (fresh : Nat → Option Mem) (env : Env) (moved : List (DiskOp × Nat)) (world : World)
    (grants : ∀ i d, moved[i]? = some d →
      min d.1.n (env.grant (world.calls + i) d.1.pos d.1.n) = min d.1.n d.2) :
    specAll (fun op world => op.onWorld env world) (moved.map Prod.fst) world =
      specAll (fun d world => d.1.onWorld (moving fresh d.2) world) moved world := by
  induction moved generalizing world with
  | nil => rfl
  | cons d rest ih =>
    have grant := grants 0 d rfl
    have same : d.1.onWorld env world = d.1.onWorld (moving fresh d.2) world := by
      unfold DiskOp.onWorld
      simp only [vfsWrite,vfsRead,moving,vfsSeek,← grant,Nat.add_zero]
    have counts : (d.1.onWorld (moving fresh d.2) world).2.calls = world.calls + 1 := by
      unfold DiskOp.onWorld
      split <;> rfl
    have later := ih (d.1.onWorld (moving fresh d.2) world).2 fun i e here => by
      rw [counts,Nat.add_assoc,Nat.add_comm 1]
      exact grants (i + 1) e here
    rw [List.map_cons,specAll,specAll,same]
    simp only [later]

theorem movedOps {issued last : Nat} {ops : List DiskOp} {moved : List (DiskOp × Nat)}
    (along : Along (Moved port drive state) issued ops moved last) : moved.map Prod.fst = ops := by
  induction along with
  | nil => rfl
  | cons first _ ih => rw [List.map_cons,first.1,ih]

theorem movedFew {issued last : Nat} {ops : List DiskOp} {moved : List (DiskOp × Nat)}
    (along : Along (Moved port drive state) issued ops moved last) :
    ∀ d ∈ moved, d.2 ≤ d.1.n ∧ ((∀ k, port.status k = 0) → d.2 = d.1.n) := by
  induction along with
  | nil => exact fun _ mem => (List.not_mem_nil mem).elim
  | cons first _ ih =>
    intro d mem
    obtain rfl | later := List.mem_cons.mp mem
    · obtain ⟨rfl,turns,commands,ends⟩ := first
      exact ⟨ends.few,fun succeed => (ends.stops.resolve_right fun fails => fails.2.2.2 (succeed _)).1⟩
    · exact ih d later

end

def blockOps : List DiskOp := [⟨true,1024,1024,0,fun i => i.toUInt8⟩,⟨false,512,2048,0,zeros⟩]

end Kdrivers.DiskStack
