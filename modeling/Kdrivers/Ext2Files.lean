import Kdrivers.ArrayStore
import Kdrivers.Ext2File
import Kdrivers.Ext2WriteRead

/-! The open files of one volume under reads and writes in a row (file.c): with blocks of
its own each file is an array of bytes, whatever is done to the others. -/
namespace Kdrivers.Ext2Files
open Bytes BitFields Vfs IndexTree Ext2State Ext2Traverse Ext2Resolve Ext2Layout Ext2Transfer Ext2WriteRead Ext2File
open ArrayStore

structure FileCall (ι : Type) where
  file : ι
  write : Bool
  size : Nat
  count : Nat
  offset : Nat
  buffer : Mem

variable {ι : Type} [DecidableEq ι]

def FileCall.run (m : Masked) (env : Env) (files : ι → NodeState) (fuel : Nat) (c : FileCall ι) (world : World) :
    Outcome (Answer × World) :=
  if c.write then
    (writeExt2File m env fuel (files c.file) (some c.buffer) c.size c.count c.offset world).map
      fun (n,world) => (⟨n,c.buffer⟩,world)
  else
    (readExt2File env fuel (files c.file) (some c.buffer) c.size c.count c.offset world).map
      fun (n,world,out) => (⟨n,out.getD c.buffer⟩,world)

def FileCall.onArray (c : FileCall ι) : Call ι := ⟨c.file,c.write,c.offset,c.size * c.count,c.buffer⟩

def addresses (files : ι → NodeState) (nodes : ι → Ext2Inode) (image : Mem) (i : ι) (x : Nat) : Option Nat :=
  byteAt (files i).basic (nodes i) image x

/- Files of one block size on a volume, each with a block for every byte up to its extent,
that share no block with each other. -/
structure Volume (files : ι → NodeState) (nodes : ι → Ext2Inode) (extent : ι → Nat) (image : Mem) : Prop where
  power : ∃ k, ∀ i, (files i).basic.blockSize = 1024 * 2^k
  held : ∀ i, (files i).basic.node = some (nodes i)
  short : ∀ i, extent i < 2^64
  mapped : ∀ i, Mapped (files i).basic (nodes i) image 0 (extent i)
  reached : Placed (addresses files nodes image) extent
  apart : ∀ i j, i ≠ j → ∀ b, DataOf (files i).basic (nodes i) image b →
    ¬ DataOf (files j).basic (nodes j) image b ∧ ∀ l, ¬ TableOf (files j).basic (nodes j) image l b

/- A call inside its file. A write needs the permission, and blocks of which no other byte
of the file is in. -/
structure FileCall.Inside (m : Masked) (files : ι → NodeState) (extent : ι → Nat) (c : FileCall ι) : Prop where
  range : c.offset + c.size * c.count ≤ extent c.file
  enabled : c.write = true → m.read (files c.file).basic.attributes 1 1 ≠ 0
  alone : c.write = true → Alone (files c.file).basic.blockSize (extent c.file) c.offset (c.size * c.count)

section
variable {files : ι → NodeState} {nodes : ι → Ext2Inode} {extent : ι → Nat} {image : Mem}

omit [DecidableEq ι] in
theorem Volume.sized (volume : Volume files nodes extent image) (i : ι) : 4 ≤ (files i).basic.blockSize := by
  obtain ⟨k,power⟩ := volume.power
  have := power i
  have := Nat.two_pow_pos k
  omega

omit [DecidableEq ι] in
theorem Volume.same (volume : Volume files nodes extent image) (i j : ι) :
    (files i).basic.blockSize = (files j).basic.blockSize := by
  obtain ⟨k,power⟩ := volume.power
  rw [power i,power j]

omit [DecidableEq ι] in
theorem mappedPart {st : BasicState} {node : Ext2Inode} {whole offset size : Nat} (mapped : Mapped st node image 0 whole)
    (inside : offset + size ≤ whole) : Mapped st node image offset size :=
  ⟨mapped.sound,mapped.data,fun x range => mapped.range x ⟨Nat.zero_le x,by have := range.2; omega⟩,
    by have := mapped.inside; omega⟩

theorem mappedKept {st : BasicState} {node : Ext2Inode} {disk : Mem} {offset size : Nat}
    (mapped : Mapped st node image offset size)
    (kept : ∀ l t i, TableOf st node image l t → i < st.blockSize / 4 → entryAt st disk t i = entryAt st image t i) :
    Mapped st node disk offset size := by
  refine ⟨soundKept mapped.sound kept,?_,?_,mapped.inside⟩
  · intro q r x first second left right
    rw [lookupNamed kept first] at left
    rw [lookupNamed kept second] at right
    exact mapped.data q r x first second left right
  · intro x range
    have positive : 0 < st.blockSize := Nat.pos_of_ne_zero fun zero => by
      have inside := mapped.inside
      have := range.2
      rw [zero,Nat.mul_zero] at inside
      omega
    have low : x / st.blockSize < 12 + st.blockSize / 4 + (st.blockSize / 4)^2 + (st.blockSize / 4)^3 :=
      (Nat.div_lt_iff_lt_mul positive).mpr (lt_of_lt_of_le range.2 mapped.inside)
    rw [layoutBlock,lookupNamed kept (pathWithin low)]
    exact mapped.range x range

theorem byteData {st : BasicState} {node : Ext2Inode} {x a : Nat} (sized : 4 ≤ st.blockSize)
    (here : byteAt st node image x = some a) :
    ∃ block, DataOf st node image block ∧ a = block * st.blockSize + x % st.blockSize := by
  obtain ⟨block,found,place⟩ := byteAtSome here
  exact ⟨block,⟨_,placeWithin st.blockSize (x / st.blockSize) (by omega),found⟩,place⟩

theorem filesApart (volume : Volume files nodes extent image) {i j : ι} {x y a : Nat}
    (left : addresses files nodes image i x = some a) (right : addresses files nodes image j y = some a) : i = j := by
  by_contra differ
  obtain ⟨b,first,here⟩ := byteData (volume.sized i) left
  obtain ⟨d,second,there⟩ := byteData (volume.sized j) right
  rw [volume.same j i] at there
  have pos : 0 < (files i).basic.blockSize := by have := volume.sized i; omega
  have blocks : b ≠ d := fun same => (volume.apart i j differ b first).1 (same ▸ second)
  exact blocksApart blocks (Nat.mod_lt x pos) (Nat.mod_lt y pos) (here.symm.trans there)

theorem entriesKept (volume : Volume files nodes extent image) {i : ι} {offset n : Nat} {bytes disk : Mem}
    (put : Put (addresses files nodes image) i offset n bytes image disk) (j : ι) :
    ∀ l t k, TableOf (files j).basic (nodes j) image l t → k < (files j).basic.blockSize / 4 →
      entryAt (files j).basic disk t k = entryAt (files j).basic image t k := by
  refine entryKept (volume.sized j) (volume.mapped j).sound fun l t named k low => ?_
  obtain ⟨x,_,there,_⟩ | ⟨_,kept⟩ := put (t * (files j).basic.blockSize + k)
  · obtain ⟨block,data,place⟩ := byteData (volume.sized i) there
    have other : t ≠ block := by
      rintro rfl
      by_cases same : i = j
      · subst same
        exact (volume.mapped i).sound.apart l t named data
      · exact (volume.apart i j same t data).2 l named
    rw [volume.same i j] at place
    exact absurd place (blocksApart other low (Nat.mod_lt _ (by omega)))
  · exact kept

theorem addressesKept (volume : Volume files nodes extent image) {i : ι} {offset n : Nat} {bytes disk : Mem}
    (put : Put (addresses files nodes image) i offset n bytes image disk) :
    addresses files nodes disk = addresses files nodes image := by
  funext j x
  exact byteAtKept (volume.sized j) (entriesKept volume put j) x

theorem volumeKept (volume : Volume files nodes extent image) {i : ι} {offset n : Nat} {bytes disk : Mem}
    (put : Put (addresses files nodes image) i offset n bytes image disk) : Volume files nodes extent disk := by
  have kept := entriesKept volume put
  refine ⟨volume.power,volume.held,volume.short,fun j => mappedKept (volume.mapped j) (kept j),?_,?_⟩
  · rw [addressesKept volume put]
    exact volume.reached
  · intro j k differ b data
    obtain ⟨others,tables⟩ := volume.apart j k differ b (ledSame (kept j) data)
    exact ⟨fun other => others (ledSame (kept k) other),fun l named => tables l (namedSame (kept k) named)⟩

end

section
variable {m : Masked} {env : Env} {files : ι → NodeState} {nodes : ι → Ext2Inode} {extent : ι → Nat}
  (full : env.Full) (allocates : env.Allocates)
include full allocates

omit full allocates in
theorem writeMore {state : NodeState} {node : Ext2Inode} (held : state.basic.node = some node)
    (enabled : m.read state.basic.attributes 1 1 ≠ 0) {size offset fuel n : Nat} (nonzero : size ≠ 0) {buffer : Mem}
    {world after : World} (run : ext2WriteInodeData m env fuel state (some buffer) offset size world = .ret (n,after)) :
    ∀ k, ext2WriteInodeData m env (fuel + k) state (some buffer) offset size world = .ret (n,after) := by
  intro k
  rw [writeInodeDataEq m held enabled _ _ _ nonzero] at run ⊢
  cases loop : traverseLoop env state.basic node (writeClient env state.basic size) offset size fuel
      (.start world buffer) with
  | next u w => rw [loop] at run; cases run
  | fault f => rw [loop] at run; cases run
  | exit e =>
    rw [loop] at run
    rw [loopMore loop k]
    exact run

omit [DecidableEq ι] in
theorem writableCall {world : World} (volume : Volume files nodes extent world.disk) {c : FileCall ι}
    (inside : c.Inside m files extent) (write : c.write = true) (some : c.size * c.count ≠ 0) :
    Writable m env (files c.file) (nodes c.file) (extent c.file) c.offset (c.size * c.count) world := by
  obtain ⟨k,power⟩ := volume.power
  exact ⟨full,allocates,volume.held c.file,inside.enabled write,⟨k,power c.file⟩,some,inside.range,volume.short c.file,
    mappedPart (volume.mapped c.file) inside.range⟩

omit full allocates [DecidableEq ι] in
theorem runRead {c : FileCall ι} (read : c.write = false) (fuel : Nat) (world : World) : c.run m env files fuel world =
    (readExt2File env fuel (files c.file) (some c.buffer) c.size c.count c.offset world).map
      fun (n,world,out) => (⟨n,out.getD c.buffer⟩,world) := by rw [FileCall.run,if_neg (by simp [read])]

omit full allocates [DecidableEq ι] in
theorem runWrite {c : FileCall ι} (write : c.write = true) (fuel : Nat) (world : World) : c.run m env files fuel world =
    (writeExt2File m env fuel (files c.file) (some c.buffer) c.size c.count c.offset world).map
      fun (n,world) => (⟨n,c.buffer⟩,world) := by rw [FileCall.run,if_pos write]

omit [DecidableEq ι] in
theorem callReads {world : World} (volume : Volume files nodes extent world.disk) {c : FileCall ι}
    (inside : c.Inside m files extent) (read : c.write = false) : ∃ after,
    Returns (fun fuel => c.run m env files fuel world) (⟨c.size * c.count,patch c.buffer 0 (c.size * c.count)
      (view (arrayOf (addresses files nodes world.disk) world.disk c.file) c.offset)⟩,after) ∧
      after.disk = world.disk := by
  have range := inside.range
  have short := volume.short c.file
  by_cases none : c.size = 0 ∨ c.count = 0
  · have zero : c.size * c.count = 0 := by simpa using none
    refine ⟨world,⟨0,fun fuel _ => ?_⟩,rfl⟩
    dsimp only
    rw [runRead read,readExt2File,if_pos none,zero,patchNone]
    rfl
  · have some : c.size * c.count ≠ 0 := by simpa using none
    obtain ⟨enough,n,after,r,run,bound,short,copied,kept⟩ := readTransfer full allocates (volume.sized c.file)
      (volume.mapped c.file).sound.data (volume.held c.file) (by omega : c.offset + c.size * c.count ≤ 2^64) (by omega)
      some c.buffer
    have whole : n = c.size * c.count := by
      by_contra less
      have placed := volume.reached c.file (c.offset + n) (by omega)
      rw [addresses,short (by omega)] at placed
      cases placed
    subst whole
    have bytes : r = patch c.buffer 0 (c.size * c.count)
        (view (arrayOf (addresses files nodes world.disk) world.disk c.file) c.offset) := by
      funext k
      by_cases low : k < c.size * c.count
      · obtain ⟨a,here,byte⟩ := copied.got k low
        rw [patchInside (Nat.zero_le k) (by omega),viewApply,Nat.sub_zero,byte]
        exact (arrayAt here).symm
      · rw [patchOutside (by omega)]
        exact copied.rest k (by omega)
    refine ⟨after,⟨enough,fun fuel more => ?_⟩,kept rfl⟩
    obtain ⟨k,rfl⟩ := Nat.exists_eq_add_of_le more
    dsimp only
    rw [runRead read,readExt2File,if_neg none,mul64Eq (by omega),run k,bytes]
    rfl

omit [DecidableEq ι] in
theorem callWrites {world : World} (volume : Volume files nodes extent world.disk) {c : FileCall ι}
    (inside : c.Inside m files extent) (write : c.write = true) : ∃ after,
    Returns (fun fuel => c.run m env files fuel world) (⟨c.size * c.count,c.buffer⟩,after) ∧
      Put (addresses files nodes world.disk) c.file c.offset (c.size * c.count) c.buffer world.disk after.disk := by
  have range := inside.range
  have short := volume.short c.file
  by_cases none : c.size = 0 ∨ c.count = 0
  · have zero : c.size * c.count = 0 := by simpa using none
    refine ⟨world,⟨0,fun fuel _ => ?_⟩,fun a => .inr ⟨fun k low => by omega,rfl⟩⟩
    dsimp only
    rw [runWrite write,writeExt2File,if_pos none,zero]
    rfl
  · have some : c.size * c.count ≠ 0 := by simpa using none
    have w := writableCall full allocates volume inside write some
    obtain ⟨enough,n,after,run,wrote⟩ := writeTransfer m full allocates (volume.sized c.file) w.mapped.sound w.held
      w.enabled (by omega : c.offset + c.size * c.count ≤ 2^64) (by omega) some c.buffer
    have whole : n = c.size * c.count := by
      by_contra less
      have bound := wrote.bound
      have placed := volume.reached c.file (c.offset + n) (by omega)
      rw [addresses,wrote.short (by omega)] at placed
      cases placed
    subst whole
    refine ⟨after,⟨enough,fun fuel more => ?_⟩,(wrote.stored rfl).bytes⟩
    obtain ⟨k,rfl⟩ := Nat.exists_eq_add_of_le more
    dsimp only
    rw [runWrite write,writeExt2File,if_neg none,mul64Eq (by omega),writeMore w.held w.enabled some run k]
    rfl

theorem callUnshared {world : World} (volume : Volume files nodes extent world.disk) {c : FileCall ι}
    (inside : c.Inside m files extent) (write : c.write = true) :
    Unshared (addresses files nodes world.disk) extent c.file c.offset (c.size * c.count) := by
  intro k low j l a bound here there
  have w := writableCall full allocates volume inside write (by omega)
  obtain rfl := filesApart volume here there
  exact ⟨rfl,(aloneByte w (inside.alone write) bound ⟨by omega,by omega⟩ there here).symm⟩

def KeepsStep (files : ι → NodeState) (nodes : ι → Ext2Inode) (extent : ι → Nat) (start : Mem) (world : World)
    (arrays : ι → Mem) : Prop :=
  Volume files nodes extent world.disk ∧ addresses files nodes world.disk = addresses files nodes start ∧
    Holds (addresses files nodes start) extent start world.disk arrays

theorem callStep {start : Mem} {world : World} {arrays : ι → Mem} (keeps : KeepsStep files nodes extent start world arrays)
    {c : FileCall ι} (inside : c.Inside m files extent) : ∃ after,
    Returns (fun fuel => c.run m env files fuel world) ((c.onArray.on arrays).1,after) ∧
      KeepsStep files nodes extent start after (c.onArray.on arrays).2 := by
  obtain ⟨volume,same,holds⟩ := keeps
  cases write : c.write with
  | true =>
    obtain ⟨after,run,put⟩ := callWrites full allocates volume inside write
    have unshared := callUnshared full allocates volume inside write
    have reached := volume.reached
    rw [Call.on,if_pos (show c.onArray.write = true from write)]
    refine ⟨after,run,volumeKept volume put,(addressesKept volume put).trans same,?_⟩
    rw [same] at put unshared reached
    exact putHolds reached holds inside.range unshared put
  | false =>
    obtain ⟨after,run,kept⟩ := callReads full allocates volume inside write
    have range := inside.range
    have bytes : patch c.buffer 0 (c.size * c.count)
        (view (arrayOf (addresses files nodes world.disk) world.disk c.file) c.offset) =
        patch c.buffer 0 (c.size * c.count) (view (arrays c.file) c.offset) := by
      refine patchCongr fun k low => ?_
      rw [same]
      exact holds.cells c.file (c.offset + k) (by omega)
    rw [bytes] at run
    rw [Call.on,if_neg (show ¬ c.onArray.write = true by simp [FileCall.onArray,write])]
    refine ⟨after,run,?_⟩
    unfold KeepsStep
    rw [kept]
    exact ⟨volume,same,holds⟩

end

def pairNode (second : Bool) : Ext2Inode := ⟨0,5,fun i => if i = 0 then (if second then 3 else 2) else 0,0,0,0⟩

def pairFile (second : Bool) : NodeState where
  super := ⟨"",zeros,0,⟨none,2,1024,2⟩,SuperBlock.ofBytes zeros⟩
  basic := ⟨some (pairNode second),2,1024,12⟩

theorem pairLookup {second : Bool} {image : Mem} {q : Path} {x : Nat}
    (found : lookup (roots (pairNode second)) (entryAt (pairFile second).basic image) q = some x) :
    q = .direct 0 ∧ x = if second then 3 else 2 := by
  cases q with
  | direct i =>
    obtain ⟨here,nonzero⟩ := followSome.mp found
    by_cases first : i = 0
    · subst first
      refine ⟨rfl,here.symm.trans ?_⟩
      cases second <;> rfl
    · refine absurd here.symm ?_
      have none : (roots (pairNode second)).direct i = 0 := by
        change ((if i = 0 then (if second then 3 else 2) else 0 : UInt32)).toNat = 0
        rw [if_neg first]
        rfl
      rw [none]
      exact nonzero
  | single i => cases found
  | double i j => cases found
  | triple i j k => cases found

theorem pairFound (second : Bool) (image : Mem) {x : Nat} (low : x < 5) :
    byteAt (pairFile second).basic (pairNode second) image x = some ((if second then 3 else 2) * 1024 + x) := by
  have size : (pairFile second).basic.blockSize = 1024 := rfl
  rw [byteAt,resolved,size,Nat.div_eq_of_lt (by omega : x < 1024),Nat.mod_eq_of_lt (by omega : x < 1024)]
  cases second <;> rfl

theorem pairTables (second : Bool) (image : Mem) (l : Level) (t : Nat) :
    ¬ TableOf (pairFile second).basic (pairNode second) image l t := noTables (fun l => by cases l <;> rfl) l t

theorem pairVolume : Volume pairFile pairNode (fun _ => 5) zeros := by
  have data (second : Bool) (b : Nat) (led : DataOf (pairFile second).basic (pairNode second) zeros b) :
      b = if second then 3 else 2 := by
    obtain ⟨_,_,found⟩ := led
    exact (pairLookup found).2
  have few (second : Bool) : (if second then 3 else 2) ≤ 3 := by cases second <;> decide
  refine ⟨⟨0,fun _ => rfl⟩,fun _ => rfl,fun _ => by decide,fun i => ⟨⟨?_,?_,?_⟩,?_,?_,?_⟩,?_,?_⟩
  · exact fun l t named => absurd named (pairTables i zeros l t)
  · intro x led
    rw [data i x led]
    exact (Nat.mul_le_mul_right 1024 (Nat.succ_le_succ (few i))).trans (by decide)
  · exact fun l t named => absurd named (pairTables i zeros l t)
  · intro q r x _ _ left right
    rw [(pairLookup left).1,(pairLookup right).1]
  · intro x range
    have first : x / (pairFile i).basic.blockSize = 0 := Nat.div_eq_of_lt (by have := range.2; change x < 1024; omega)
    rw [layoutBlock,first]
    cases i <;> rfl
  · change 0 + 5 ≤ (12 + 1024 / 4 + (1024 / 4)^2 + (1024 / 4)^3) * 1024
    decide
  · intro i x low
    rw [addresses,pairFound i zeros low]
    rfl
  · intro i j differ b led
    refine ⟨fun other => ?_,fun l named => pairTables j zeros l b named⟩
    have same := (data i b led).symm.trans (data j b other)
    cases i <;> cases j <;> simp at same differ

end Kdrivers.Ext2Files
