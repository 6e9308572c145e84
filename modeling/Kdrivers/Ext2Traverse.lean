import Kdrivers.Outcome
import Kdrivers.Vfs
import Kdrivers.Ext2State

/-! The block traversal shared by the ext2 file and directory drivers (util.c) and the
two callbacks it is used with. The walk keeps at most one cached table of each level.
State pointers that the callers have checked are not NULL are plain values. -/
namespace Kdrivers.Ext2Traverse
open Bytes BitFields Vfs IndexTree Ext2State

/- A caller of the traversal: what its do_callback does with a block, the position
traversed and the offset in the block, and its create_callback, none for NULL. Both
work on the caller's own data. -/
structure Client (σ : Type) where
  visit : World → σ → (block traversed jank : Nat) → Nat × World × σ
  create : Option (σ → Nat → Nat × σ)

/- table holds the buffers sibp, dibp and tibp, last the block numbers last_doubly (of
sibp) and last_triply (of dibp); the last of tibp is never set. -/
structure Walk (σ : Type) where
  world : World
  data : σ
  traversed : Nat
  table : Level → Option Mem
  last : Level → Nat

inductive Flow (σ α : Type) where
  | next (a : α) (w : Walk σ)
  | exit (w : Walk σ)
  | fault (f : Fault)

def Flow.bind {σ α β : Type} (x : Flow σ α) (f : α → Walk σ → Flow σ β) : Flow σ β := match x with
  | .next a w => f a w
  | .exit w => .exit w
  | .fault f => .fault f

section Traversal
variable {σ : Type} (env : Env) (st : BasicState) (node : Ext2Inode) (c : Client σ)

def ext2LoadBlock (block : Nat) (data : σ) : Nat × σ :=
  if block ≠ 0 then (block,data)
  else match c.create with
    | none => (0,data)
    | some create => create data st.inode

def ext2LoadReadBlock (block : Nat) (out : Option Mem) (world : World) (data : σ) :
    Int × Option Mem × World × σ :=
  let (out,world) := match out with
    | some buffer => (some buffer,world)
    | none => alloc env world
  match out with
  | none => (-2,none,world,data)
  | some buffer =>
    let (loaded,data) := ext2LoadBlock st c block data
    if loaded ≠ 0 then
      let world := vfsSeek world (mul64 loaded st.blockSize)
      let (_,buffer,world) := vfsRead env world buffer 0 st.blockSize
      (0,some buffer,world,data)
    else (-3,some buffer,world,data)

def writeTable (world : World) (block : Nat) (table : Option Mem) : World := match table with
  | none => world
  | some table => (vfsWrite env (vfsSeek world (mul64 block st.blockSize)) table 0 st.blockSize).2

/- The three top tables are obtained alike: the cached one, or a fresh buffer filled
from the pointer in the inode. -/
def loadTop (l : Level) (w : Walk σ) : Flow σ Unit := match w.table l with
  | some _ => .next () w
  | none =>
    let (r,out,world,data) := ext2LoadReadBlock env st c (node.top l) none w.world w.data
    let w := { w with world := world, data := data, table := Function.update w.table l out }
    if r = 0 then .next () w else .exit w

/- The lower tables are replaced alike, dibp under entry i of tibp and (from do_dibp on)
sibp under entry i of dibp: the old one is written back and the new one read over it,
unless the entry names the block read last. The result of the read is not looked at. -/
def switchTable (upper lower : Level) (i : Nat) (w : Walk σ) : Flow σ Unit := match w.table upper with
  | none => .fault .nullPointer
  | some above =>
    let (block,data) := ext2LoadBlock st c (le32 above (4 * i)) w.data
    if block = 0 then .exit { w with data := data }
    else if block = w.last lower then .next () { w with data := data }
    else
      let world := if w.last lower ≠ 0 then writeTable env st w.world (w.last lower) (w.table lower)
        else w.world
      let (_,out,world,data) := ext2LoadReadBlock env st c (le32 above (4 * i)) (w.table lower) world data
      .next () { w with
        world := world
        data := data
        table := Function.update w.table lower out
        last := Function.update w.last lower block }

-- skip_dibp: the data block under entry i of sibp
def skipDibp (i : Nat) (w : Walk σ) : Flow σ Nat := match w.table .single with
  | none => .fault .nullPointer
  | some sibp =>
    let (block,data) := ext2LoadBlock st c (le32 sibp (4 * i)) w.data
    if block = 0 then .exit { w with data := data } else .next block { w with data := data }

def directBlock (i : Nat) (w : Walk σ) : Flow σ Nat :=
  let (block,data) := ext2LoadBlock st c (node.direct i) w.data
  if block = 0 then .exit { w with data := data } else .next block { w with data := data }

def findBlock (index : Nat) (w : Walk σ) : Flow σ Nat :=
  let count := st.blockSize / 4
  if index < 12 then directBlock st node c index w
  else if count = 0 then .fault .divisionByZero
  else
    let singly := index - 12
    let doubly := singly / st.blockSize
    let triply := doubly / st.blockSize
    let last := skipDibp st c (singly % count)
    let doDibp := fun w => (switchTable env st c .double .single (pred64 doubly % count) w).bind fun _ w => last w
    if doubly ||| triply = 0 then (loadTop env st node c .single w).bind fun _ w => last w
    else if doubly ≥ count + 1 then
      (loadTop env st node c .triple w).bind fun _ w =>
        (switchTable env st c .triple .double (pred64 triply % count) w).bind fun _ w => doDibp w
    else (loadTop env st node c .double w).bind fun _ w => doDibp w

def blockIndex (offset : Nat) (w : Walk σ) : Nat := add64 w.traversed offset / st.blockSize
def blockJank (offset : Nat) (w : Walk σ) : Nat :=
  add64 w.traversed offset - blockIndex st offset w * st.blockSize

def traverseStep (offset : Nat) (w : Walk σ) : Flow σ Unit :=
  if st.blockSize = 0 then .fault .divisionByZero
  else (findBlock env st node c (blockIndex st offset w) w).bind fun block found =>
    let (n,world,data) := c.visit found.world found.data block found.traversed (blockJank st offset w)
    .next () { found with world := world, data := data, traversed := add64 found.traversed n }

-- at most fuel iterations; next is a walk that has not come to its end by then
def traverseLoop (offset size : Nat) : Nat → Walk σ → Flow σ Unit
  | 0, w => .next () w
  | fuel+1, w =>
    if w.traversed < size then
      (traverseStep env st node c offset w).bind fun _ w => traverseLoop offset size fuel w
    else .exit w

def home (w : Walk σ) (l : Level) : Nat := if w.last l = 0 then node.top l else w.last l

def traverseExit (w : Walk σ) : World :=
  let world := writeTable env st w.world (node.top .triple) (w.table .triple)
  let world := writeTable env st world (home node w .double) (w.table .double)
  writeTable env st world (home node w .single) (w.table .single)

def Walk.start (world : World) (data : σ) : Walk σ := ⟨world,data,0,fun _ => none,fun _ => 0⟩

-- a NULL inode is dereferenced in the first iteration
def ext2TraverseBlocks (fuel offset size : Nat) (world : World) (data : σ) :
    Outcome (Nat × World × σ) :=
  if size = 0 then .ret (0,world,data)
  else match st.node with
    | none => .fault .nullPointer
    | some node => match traverseLoop env st node c offset size fuel (.start world data) with
      | .next _ _ => .running
      | .exit w => .ret (w.traversed,traverseExit env st node w,w.data)
      | .fault f => .fault f

end Traversal

def ext2ReadCallback (env : Env) (st : BasicState) (size : Nat) (world : World) (buffer : Mem)
    (block traversed jank : Nat) : Nat × World × Mem :=
  let world := vfsSeek world (add64 (mul64 block st.blockSize) jank)
  let (n,buffer,world) := vfsRead env world buffer traversed (min (st.blockSize - jank) (size - traversed))
  (n,world,buffer)

def ext2WriteCallback (env : Env) (st : BasicState) (size : Nat) (world : World) (buffer : Mem)
    (block traversed jank : Nat) : Nat × World × Mem :=
  let world := vfsSeek world (add64 (mul64 block st.blockSize) jank)
  let (n,world) := vfsWrite env world buffer traversed (min (st.blockSize - jank) (size - traversed))
  (n,world,buffer)

-- block creation is unimplemented
def ext2CreateCallback (buffer : Mem) (_inode : Nat) : Nat × Mem := (0,buffer)

def readClient (env : Env) (st : BasicState) (size : Nat) : Client Mem :=
  ⟨ext2ReadCallback env st size,none⟩

def writeClient (env : Env) (st : BasicState) (size : Nat) : Client Mem :=
  ⟨ext2WriteCallback env st size,some ext2CreateCallback⟩

def ext2ReadInodeData (env : Env) (fuel : Nat) (st : BasicState) (buffer : Option Mem)
    (offset size : Nat) (world : World) : Outcome (Nat × World × Option Mem) := match buffer with
  | none => .ret (0,world,none)
  | some buffer =>
    if size = 0 then .ret (0,world,some buffer)
    else (ext2TraverseBlocks env st (readClient env st size) fuel offset size world buffer).map
      fun (n,world,buffer) => (n,world,some buffer)

-- refused without bit 1 of the attributes
def ext2WriteInodeData (m : Masked) (env : Env) (fuel : Nat) (state : NodeState) (buffer : Option Mem)
    (offset size : Nat) (world : World) : Outcome (Nat × World) := match buffer with
  | none => .ret (0,world)
  | some buffer =>
    if size = 0 ∨ m.read state.basic.attributes 1 1 = 0 then .ret (0,world)
    else (ext2TraverseBlocks env state.basic (writeClient env state.basic size) fuel offset size world
      buffer).map fun (n,world,_) => (n,world)

end Kdrivers.Ext2Traverse
