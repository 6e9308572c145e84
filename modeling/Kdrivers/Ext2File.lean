import Kdrivers.Ext2Directory

/-! Files and directories opened below a mounted superblock (file.c, directory.c), and who
decides whether they are written. -/
namespace Kdrivers.Ext2File
open Bytes BitFields CString Vfs IndexTree Ext2State Ext2Traverse Ext2Transfer Ext2Super Ext2Directory

def attributesOf (memory : Mem) : BitVec 64 := BitVec.ofNat 64 (le64 memory 24)

/- The memory of the state is not cleared, and its attributes are not set. -/
def initNode (env : Env) (opened : Bool) (args : Ext2LocateArgs) (world : World) : Int × Option NodeState × World :=
  match alloc env world with
  | (none,world) => (-2,none,world)
  | (some memory,world) =>
    if opened = false then (-3,none,world)
    else (0,some ⟨args.super,⟨args.node,attributesOf memory,args.super.basic.blockSize,args.inode⟩⟩,world)

def initExt2Directory := initNode
def initExt2File := initNode

def writeExt2File (m : Masked) (env : Env) (fuel : Nat) (state : NodeState) (buffer : Option Mem)
    (size count offset : Nat) (world : World) : Outcome (Nat × World) := match buffer with
  | none => .ret (0,world)
  | some buffer =>
    if size = 0 ∨ count = 0 then .ret (0,world)
    else ext2WriteInodeData m env fuel state (some buffer) offset (mul64 size count) world

def readExt2File (env : Env) (fuel : Nat) (state : NodeState) (buffer : Option Mem) (size count offset : Nat)
    (world : World) : Outcome (Nat × World × Option Mem) := match buffer with
  | none => .ret (0,world,none)
  | some buffer =>
    if size = 0 ∨ count = 0 then .ret (0,world,some buffer)
    else ext2ReadInodeData env fuel state.basic (some buffer) offset (mul64 size count) world

structure Stat where
  stMode : Nat
  stSize : Nat

def statExt2File (state : NodeState) : Outcome Stat := match state.basic.node with
  | none => .fault .nullPointer
  | some node => .ret ⟨node.typePerms.toNat,node.sizeLow.toNat⟩

/- What locate returns below a superblock, through any number of directories. -/
inductive Located (env : Env) (super : SuperState) : Ext2LocateArgs → Prop where
  | root {fuel : Nat} {filename : Mem} {world after : World} {args : Ext2LocateArgs}
      (run : locateExt2Super env fuel super filename world = .ret (some args,after)) : Located env super args
  | under {fuel : Nat} {filename : Mem} {opened : Bool} {world now before after : World} {dir : NodeState}
      {parent args : Ext2LocateArgs} (located : Located env super parent)
      (init : initExt2Directory env opened parent world = (0,some dir,now))
      (run : locateExt2Directory env fuel dir filename before = .ret (some args,after)) : Located env super args

structure Governed (m : Masked) (state : NodeState) : Prop where
  changes : ∀ env fuel buffer size count offset world n after,
    writeExt2File m env fuel state buffer size count offset world = .ret (n,after) → after.disk ≠ world.disk →
      state.super.basic.attributes.getLsbD 1 = true
  allows : state.super.basic.attributes.getLsbD 1 = true → ∀ (env : Env) (node : Ext2Inode) (buffer : Mem)
    (size count offset : Nat) (world : World), env.Full → env.Allocates → 4 ≤ state.basic.blockSize →
      state.basic.node = some node → Sound state.basic node world.disk → 0 < size * count →
      size * count < 2^64 → offset + size * count ≤ 2^64 →
      (∀ i < size * count, ∃ a, byteAt state.basic node world.disk (offset + i) = some a) →
      ∃ fuel after, writeExt2File m env fuel state (some buffer) size count offset world = .ret (size * count,after)

theorem locateSuper {env : Env} {fuel : Nat} {dir : BasicState} {super : SuperState} {filename : Mem}
    {world after : World} {args : Ext2LocateArgs} (run : locateIn env fuel dir super filename world =
      .ret (some args,after)) : args.super = super := by
  unfold locateIn at run
  split at run
  · cases run
  · obtain ⟨⟨inode,now⟩,_,run⟩ := Outcome.bindRet run
    obtain ⟨⟨node,last⟩,_,run⟩ := Outcome.bindRet run
    cases run
    rfl

theorem initNodeState {env : Env} {opened : Bool} {args : Ext2LocateArgs} {world after : World} {state : NodeState}
    (init : initNode env opened args world = (0,some state,after)) : ∃ memory, env.fresh world.allocs = some memory ∧
      state = ⟨args.super,⟨args.node,attributesOf memory,args.super.basic.blockSize,args.inode⟩⟩ := by
  unfold initNode at init
  cases fresh : env.fresh world.allocs with
  | none =>
    simp only [alloc,fresh] at init
    cases init
  | some memory =>
    simp only [alloc,fresh] at init
    split at init
    · cases init
    · cases init
      exact ⟨memory,rfl,rfl⟩

theorem locatedSuper {env : Env} {super : SuperState} {args : Ext2LocateArgs} (located : Located env super args) :
    args.super = super := by
  induction located with
  | root run => exact locateSuper run
  | under _ init run ih =>
    obtain ⟨_,_,rfl⟩ := initNodeState init
    exact (locateSuper run).trans ih

theorem writeRefused (m : Masked) {env : Env} {state : NodeState} (denied : state.basic.attributes.getLsbD 1 = false)
    (fuel : Nat) (buffer : Option Mem) (size count offset : Nat) (world : World) :
    writeExt2File m env fuel state buffer size count offset world = .ret (0,world) := by
  cases buffer with
  | none => rfl
  | some buffer =>
    by_cases empty : size = 0 ∨ count = 0
    · exact if_pos empty
    · rw [writeExt2File,if_neg empty,ext2WriteInodeData,if_pos (.inr ((readBitZero m _ 1).mpr denied))]

theorem writeAllowed (m : Masked) {env : Env} {state : NodeState} {node : Ext2Inode} {size count offset : Nat}
    {world : World} (allowed : state.basic.attributes.getLsbD 1 = true) (full : env.Full) (allocates : env.Allocates)
    (sized : 4 ≤ state.basic.blockSize) (held : state.basic.node = some node) (sound : Sound state.basic node world.disk)
    (nonzero : 0 < size * count) (short : size * count < 2^64) (fits : offset + size * count ≤ 2^64)
    (mapped : ∀ i < size * count, ∃ a, byteAt state.basic node world.disk (offset + i) = some a) (buffer : Mem) :
    ∃ fuel after, writeExt2File m env fuel state (some buffer) size count offset world = .ret (size * count,after) ∧
      Stored state.basic node world.disk offset buffer (size * count) after.disk := by
  have enabled : m.read state.basic.attributes 1 1 ≠ 0 := fun zero => by
    rw [readBitZero,allowed] at zero
    cases zero
  obtain ⟨fuel,n,after,run,wrote⟩ := writeTransfer m full allocates sized sound held enabled fits short nonzero.ne' buffer
  have whole : n = size * count := by
    by_contra less
    have bound := wrote.bound
    obtain ⟨a,here⟩ := mapped n (by omega)
    rw [wrote.short (by omega)] at here
    cases here
  subst whole
  refine ⟨fuel,after,?_,wrote.stored rfl⟩
  have parts : ¬ (size = 0 ∨ count = 0) := by
    rw [← Nat.mul_eq_zero]
    exact nonzero.ne'
  rw [writeExt2File,if_neg parts,mul64Eq short,run]

theorem governedSame (m : Masked) {state : NodeState}
    (same : state.basic.attributes.getLsbD 1 = state.super.basic.attributes.getLsbD 1) : Governed m state := by
  constructor
  · intro env fuel buffer size count offset world n after run changed
    by_contra denied
    rw [← same,Bool.not_eq_true] at denied
    rw [writeRefused m denied] at run
    cases run
    exact changed rfl
  · intro allowed env node buffer size count offset world full allocates sized held sound nonzero short fits mapped
    obtain ⟨fuel,after,run,_⟩ := writeAllowed m (same.trans allowed) full allocates sized held sound nonzero short fits
      mapped buffer
    exact ⟨fuel,after,run⟩

def Allocated (state : NodeState) : Prop := ∃ node image, state.basic.node = some node ∧ 4 ≤ state.basic.blockSize ∧
  Sound state.basic node image ∧ ∃ a, byteAt state.basic node image 0 = some a

theorem governedDiffers (m : Masked) {state : NodeState} (allocated : Allocated state) (governed : Governed m state) :
    state.basic.attributes.getLsbD 1 = state.super.basic.attributes.getLsbD 1 := by
  obtain ⟨node,image,held,sized,sound,a,first⟩ := allocated
  let env : Env := ⟨fun _ _ n => n,fun _ => some zeros⟩
  let world : World := ⟨image,0,0,0⟩
  have full : env.Full := fun _ _ _ => le_rfl
  have mapped : ∀ i < 1 * 1, ∃ a, byteAt state.basic node world.disk (0 + i) = some a := by
    intro i low
    rw [show i = 0 by omega]
    exact ⟨a,first⟩
  cases own : state.basic.attributes.getLsbD 1 with
  | false =>
    cases bit : state.super.basic.attributes.getLsbD 1 with
    | false => rfl
    | true =>
      obtain ⟨fuel,after,run⟩ := governed.allows bit env node zeros 1 1 0 world full (fun _ => rfl) sized held sound
        (by decide) (by decide) (by decide) mapped
      rw [writeRefused m own] at run
      cases run
  | true =>
    obtain ⟨fuel,after,run,stored⟩ := writeAllowed m own full (fun _ => rfl) sized held sound (by decide) (by decide)
      (by decide) mapped fun _ => image a + 1
    have changed : after.disk ≠ world.disk := by
      intro same
      have other : image a ≠ image a + 1 := by simp
      obtain ⟨_,_,_,wrote⟩ | ⟨outside,_⟩ := stored.bytes a
      · rw [same] at wrote
        exact other wrote
      · exact outside 0 (by decide) first
    exact (governed.changes env fuel _ 1 1 0 world _ after run changed).symm

/-- Below every superblock that mounts, a file's writes are governed by the permission of
the mount just if the memory that its state happens to be allocated in has it. -/
theorem permissionIff (m : Masked) {env : Env} {path : String} {opened again : Bool} {world mounted now after : World}
    {super : SuperState} (mount : initExt2Super m env path opened world = .ret (0,some super,mounted))
    {args : Ext2LocateArgs} (located : Located env super args) {memory : Mem}
    (fresh : env.fresh now.allocs = some memory) {state : NodeState}
    (init : initExt2File env again args now = (0,some state,after)) :
    ((attributesOf memory).getLsbD 1 = !readOnly super.super → Governed m state) ∧
    (Allocated state → Governed m state → (attributesOf memory).getLsbD 1 = !readOnly super.super) := by
  obtain ⟨held,same,rfl⟩ := initNodeState init
  obtain rfl : memory = held := Option.some.inj (fresh.symm.trans same)
  have bit : args.super.basic.attributes.getLsbD 1 = !readOnly super.super := by
    rw [locatedSuper located,initBit mount]
  exact ⟨fun same => governedSame m (same.trans bit.symm),fun allocated governed =>
    (governedDiffers m allocated governed).trans bit⟩

def sparseBytes : List (Nat × UInt8) := [(1024,32),(1028,64),(1044,1),(1057,32),(1064,32),(1080,0x53),(1081,0xEF),
  (1082,1),(1112,128),(1124,1),(2056,3),(3240,10),(3624,11),(10240,5),(10245,4),(10246,1),(10248,102)]

def sparseWorld : World := ⟨fun i => (sparseBytes.lookup i).getD 0,0,0,0⟩
def filledEnv (memory : Mem) : Env := ⟨fun _ _ n => n,fun _ => some memory⟩

theorem initFilled (memory : Mem) (args : Ext2LocateArgs) (world : World) : initExt2File (filledEnv memory) true args world =
    (0,some ⟨args.super,⟨args.node,attributesOf memory,args.super.basic.blockSize,args.inode⟩⟩,
      (alloc (filledEnv memory) world).2) := rfl

def found (memory : Mem) (p : SuperState → Ext2LocateArgs → Bool) : Bool :=
  (initExt2Super .standard (filledEnv memory) "" true sparseWorld).holds fun (r,super,mounted) =>
    r == 0 && super.any fun super =>
      (locateExt2Super (filledEnv memory) 20 super (text [102]) mounted).holds fun (args,_) => args.any (p super)

theorem foundBelow {memory : Mem} {p : SuperState → Ext2LocateArgs → Bool} (done : found memory p = true) :
    ∃ super mounted args, initExt2Super .standard (filledEnv memory) "" true sparseWorld = .ret (0,some super,mounted) ∧
      Located (filledEnv memory) super args ∧ p super args = true := by
  obtain ⟨⟨r,super,mounted⟩,mount,more⟩ := Outcome.holdsRet done
  rw [Bool.and_eq_true,Option.any_eq_true] at more
  obtain ⟨clean,super,rfl,more⟩ := more
  obtain ⟨⟨args,after⟩,run,more⟩ := Outcome.holdsRet more
  rw [Option.any_eq_true] at more
  obtain ⟨args,rfl,holds⟩ := more
  rw [eq_of_beq clean] at mount
  exact ⟨super,mounted,args,mount,.root run,holds⟩

theorem permissionIffCleared : ∃ super mounted args state after,
    initExt2Super .standard (filledEnv zeros) "" true sparseWorld = .ret (0,some super,mounted) ∧
      Located (filledEnv zeros) super args ∧
      initExt2File (filledEnv zeros) true args mounted = (0,some state,after) ∧ Governed .standard state := by
  have done : found zeros (fun super _ => readOnly super.super) = true := by decide +kernel
  obtain ⟨super,mounted,args,mount,located,hold⟩ := foundBelow done
  have init := initFilled zeros args mounted
  refine ⟨super,mounted,args,_,_,mount,located,init,?_⟩
  refine (permissionIff .standard mount located rfl init).1 ?_
  rw [hold]
  rfl

theorem readOnlyWritten : ¬ ∀ (m : Masked) (env : Env) (path : String) (opened again : Bool)
    (world mounted now after : World) (super : SuperState) (args : Ext2LocateArgs) (state : NodeState),
    initExt2Super m env path opened world = .ret (0,some super,mounted) → Located env super args →
      initExt2File env again args now = (0,some state,after) → Governed m state := by
  intro all
  let ones : Mem := fun _ => 255
  have done : found ones (fun super args => readOnly super.super && decide (super.basic.blockSize = 1024) &&
      args.node.any fun node => decide (node.direct 0 = 11 ∧ node.sibp = 0 ∧ node.dibp = 0 ∧ node.tibp = 0)) = true := by
    decide +kernel
  obtain ⟨super,mounted,args,mount,located,hold⟩ := foundBelow done
  simp only [Bool.and_eq_true,Option.any_eq_true,decide_eq_true_eq] at hold
  obtain ⟨⟨hold,size⟩,node,held,first,single,double,triple⟩ := hold
  let state : NodeState := ⟨args.super,⟨args.node,attributesOf ones,args.super.basic.blockSize,args.inode⟩⟩
  have sized : state.basic.blockSize = 1024 := by
    change args.super.basic.blockSize = 1024
    rw [locatedSuper located,size]
  have plain (l : Level) : node.top l = 0 := by
    cases l with
    | single => exact congrArg UInt32.toNat single
    | double => exact congrArg UInt32.toNat double
    | triple => exact congrArg UInt32.toNat triple
  have sound : Sound state.basic node zeros := by
    refine ⟨fun l t named => absurd named (noTables plain l t),fun x data => ?_,
      fun l t named => absurd named (noTables plain l t)⟩
    have low := dataLt data
    rw [sized]
    omega
  have allocated : Allocated state := by
    refine ⟨node,zeros,held,by omega,sound,11 * 1024,?_⟩
    rw [byteAt,sized]
    change (follow (node.direct 0)).map _ = _
    rw [first]
    rfl
  have governed := governedDiffers .standard allocated (all .standard _ "" true true sparseWorld mounted mounted _ super
    args state mount located (initFilled ones args mounted))
  have permission : state.super.basic.attributes.getLsbD 1 = false := by
    change args.super.basic.attributes.getLsbD 1 = false
    rw [locatedSuper located,initBit mount,hold]
    rfl
  have own : (attributesOf ones).getLsbD 1 = true := by decide
  rw [permission] at governed
  exact absurd (own.symm.trans governed) (by decide)

end Kdrivers.Ext2File
