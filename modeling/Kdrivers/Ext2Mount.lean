import Mathlib.Algebra.Order.Floor.Div
import Kdrivers.Ext2Super

/-! A mount over every superblock: which ones init_ext2_super takes or refuses without
a forbidden access, leaving a state whose sizes fit the filesystem. -/
namespace Kdrivers.Ext2Mount
open Bytes BitFields Vfs Ext2State Ext2Super

structure Usable (sb : SuperBlock) (st : SuperState) : Prop where
  super : st.super = sb
  blockSize : st.basic.blockSize = 1024 * 2^sb.log2BlockSize.toNat
  positive : st.basic.blockSize ≠ 0
  blocks : ∀ b, sb.superblock.toNat ≤ b → b < sb.totalBlocks.toNat →
    (b - sb.superblock.toNat) / sb.blocksPerGroup.toNat < st.descriptorCount
  inodes : ∀ i, 1 ≤ i → i < sb.totalInodes.toNat + 1 → (i - 1) / sb.inodesPerGroup.toNat < st.descriptorCount
  inodeSize : 128 ≤ sb.inodeSize.toNat
  revisionZero : sb.verMaj = 0 → sb.inodeSize = 128

def Safe (sb : SuperBlock) : Outcome (Int × Option SuperState × World) → Prop
  | .ret (r,st,_) => r ≠ 0 ∨ ∃ state, st = some state ∧ Usable sb state
  | _ => False

def blockGroups (sb : SuperBlock) : Nat := sb.totalBlocks.toNat ⌈/⌉ sb.blocksPerGroup.toNat
def inodeGroups (sb : SuperBlock) : Nat := sb.totalInodes.toNat ⌈/⌉ sb.inodesPerGroup.toNat

structure Sized (sb : SuperBlock) : Prop where
  perBlock : sb.blocksPerGroup ≠ 0
  perInode : sb.inodesPerGroup ≠ 0
  blockSum : sb.totalBlocks.toNat + sb.blocksPerGroup.toNat ≤ 2^32
  inodeSum : sb.totalInodes.toNat + sb.inodesPerGroup.toNat ≤ 2^32
  shift : sb.log2BlockSize.toNat < 54
  root : 1 / sb.inodesPerGroup.toNat < inodeGroups sb
  blocks : (sb.totalBlocks.toNat - sb.superblock.toNat) ⌈/⌉ sb.blocksPerGroup.toNat ≤ inodeGroups sb
  inodes : inodeGroups sb ≤ blockGroups sb
  inodeSize : 128 ≤ sb.inodeSize.toNat
  revisionZero : sb.verMaj = 0 → sb.inodeSize = 128

def Mountable (sb : SuperBlock) : Prop :=
  sb.sig ≠ 0xEF53 ∨ (sb.state ≠ 1 ∧ sb.errHandle = 3) ∨ (Examined sb ∧ (Supported sb → Sized sb))

theorem shiftBlockSizeEq (i : Nat) {size : Nat} (bound : size < 2^64) : shiftBlockSize i size = size * 2^i % 2^64 := by
  induction i generalizing size with
  | zero => rw [shiftBlockSize,Nat.pow_zero,Nat.mul_one,Nat.mod_eq_of_lt bound]
  | succ i ih =>
    rw [shiftBlockSize,ih (Nat.mod_lt _ (by positivity)),Nat.mod_mul_mod,Nat.mul_assoc,← Nat.pow_succ']

theorem blockSizeIff (log2 : UInt32) :
    blockSizeOf log2 = 1024 * 2^log2.toNat ∧ blockSizeOf log2 ≠ 0 ↔ log2.toNat < 54 := by
  have step : (2 : Nat)^64 = 1024 * 2^54 := by norm_num
  have positive : 0 < 2^log2.toNat := by positivity
  constructor
  · rintro ⟨same,_⟩
    by_contra high
    have large : 2^54 ≤ 2^log2.toNat := Nat.pow_le_pow_right (by omega) (Nat.le_of_not_lt high)
    unfold blockSizeOf at same
    by_cases negative : 2^31 ≤ log2.toNat
    · rw [if_pos negative] at same
      omega
    · rw [if_neg negative,shiftBlockSizeEq _ (by omega)] at same
      have lost := Nat.mod_lt (1024 * 2^log2.toNat) (show 0 < 2^64 by omega)
      omega
  · intro low
    have small : 2^log2.toNat < 2^54 := Nat.pow_lt_pow_right (by omega) low
    have kept : blockSizeOf log2 = 1024 * 2^log2.toNat := by
      rw [blockSizeOf,if_neg (by omega),shiftBlockSizeEq _ (by omega),Nat.mod_eq_of_lt (by omega)]
    exact ⟨kept,by omega⟩

def wrappedGroups (total per : UInt32) : Nat :=
  if total.toNat + per.toNat ≤ 2^32 then total.toNat ⌈/⌉ per.toNat else 0

theorem groupsOfEq (total : UInt32) {per : UInt32} (some : per ≠ 0) :
    groupsOf total per = .ret (wrappedGroups total per) := by
  have low := total.toNat_lt
  have high := per.toNat_lt
  have positive : 0 < per.toNat := Nat.pos_of_ne_zero fun zero => some (UInt32.toNat_inj.mp zero)
  have value : (total + per - 1).toNat = (total.toNat + per.toNat - 1) % 2^32 := by
    rw [UInt32.toNat_sub,UInt32.toNat_add,UInt32.toNat_one]
    omega
  rw [groupsOf,if_neg some,UInt32.toNat_div,value,wrappedGroups,Nat.ceilDiv_eq_add_pred_div]
  by_cases fits : total.toNat + per.toNat ≤ 2^32
  · rw [if_pos fits,Nat.mod_eq_of_lt (by omega)]
  · rw [if_neg fits,Nat.div_eq_of_lt (by omega)]

theorem wrappedPos {total per : UInt32} (some : 0 < wrappedGroups total per) :
    total.toNat + per.toNat ≤ 2^32 ∧ wrappedGroups total per = total.toNat ⌈/⌉ per.toNat := by
  by_cases fits : total.toNat + per.toNat ≤ 2^32
  · exact ⟨fits,if_pos fits⟩
  · rw [wrappedGroups,if_neg fits] at some
    exact absurd some (Nat.lt_irrefl 0)

theorem coverIff {per : Nat} (positive : 0 < per) (first last count : Nat) :
    (∀ b, first ≤ b → b < last → (b - first) / per < count) ↔ (last - first) ⌈/⌉ per ≤ count := by
  rw [ceilDiv_le_iff_le_mul positive]
  constructor
  · intro cover
    by_contra short
    have := (Nat.div_lt_iff_lt_mul positive).mp (cover (last - 1) (by omega) (by omega))
    rw [Nat.mul_comm] at this
    omega
  · intro cover b lower upper
    rw [Nat.div_lt_iff_lt_mul positive,Nat.mul_comm]
    omega

theorem checkSuperReturns (m : Masked) (attributes : BitVec 64) (sb : SuperBlock) :
    (∃ r, ext2CheckSuper m attributes sb = .ret r) ↔ (sb.state ≠ 1 ∧ sb.errHandle = 3) ∨ sb.osId.toNat < 5 := by
  unfold ext2CheckSuper
  by_cases unknown : ¬ (sb.state ≠ 1 ∧ sb.errHandle = 3) ∧ 5 ≤ sb.osId.toNat
  · rw [if_pos unknown]
    refine ⟨fun returned => ?_,fun known => ?_⟩
    · obtain ⟨_,run⟩ := returned
      cases run
    · exact absurd unknown.2 (Nat.not_le_of_lt (known.resolve_left unknown.1))
  · rw [if_neg unknown]
    refine ⟨fun _ => ?_,fun _ => ⟨_,rfl⟩⟩
    by_cases failed : sb.state ≠ 1 ∧ sb.errHandle = 3
    · exact .inl failed
    · exact .inr (Nat.lt_of_not_le fun os => unknown ⟨failed,os⟩)

theorem readInodeSafe (env : Env) (st : SuperState) (inode : Nat) (world : World) (some : st.super.inodesPerGroup ≠ 0)
    (inside : (inode - 1) / st.super.inodesPerGroup.toNat < st.descriptorCount) :
    ∃ r, ext2ReadInode env st inode world = .ret r := by
  by_cases zero : inode = 0
  · exact ⟨_,if_pos zero⟩
  rw [ext2ReadInode,if_neg zero]
  cases fresh : env.fresh world.allocs with
  | none =>
    simp only [alloc,fresh]
    exact ⟨_,rfl⟩
  | some buffer =>
    simp only [alloc,fresh,if_neg some,if_neg (Nat.not_le_of_lt inside)]
    exact ⟨_,rfl⟩

theorem readInodeFault {env : Env} {st : SuperState} {inode : Nat} (world : World) (all : env.Allocates)
    (named : inode ≠ 0) (some : st.super.inodesPerGroup ≠ 0)
    (outside : st.descriptorCount ≤ (inode - 1) / st.super.inodesPerGroup.toNat) :
    ext2ReadInode env st inode world = .fault .tableIndex := by
  obtain ⟨buffer,fresh⟩ := Option.isSome_iff_exists.mp (all world.allocs)
  simp only [ext2ReadInode,if_neg named,alloc,fresh,if_neg some,if_pos outside]

def descriptorGroups (sb : SuperBlock) : Nat :=
  min (wrappedGroups sb.totalBlocks sb.blocksPerGroup) (wrappedGroups sb.totalInodes sb.inodesPerGroup)

theorem sizedGroups {sb : SuperBlock} (sized : Sized sb) : descriptorGroups sb = inodeGroups sb := by
  rw [descriptorGroups,wrappedGroups,wrappedGroups,if_pos sized.blockSum,if_pos sized.inodeSum]
  exact Nat.min_eq_right sized.inodes

theorem sizedUsable {sb : SuperBlock} (sized : Sized sb) {st : SuperState} (super : st.super = sb)
    (size : st.basic.blockSize = blockSizeOf sb.log2BlockSize) (count : st.descriptorCount = descriptorGroups sb) :
    Usable sb st := by
  have perBlock : 0 < sb.blocksPerGroup.toNat :=
    Nat.pos_of_ne_zero fun zero => sized.perBlock (UInt32.toNat_inj.mp zero)
  have perInode : 0 < sb.inodesPerGroup.toNat :=
    Nat.pos_of_ne_zero fun zero => sized.perInode (UInt32.toNat_inj.mp zero)
  obtain ⟨same,positive⟩ := (blockSizeIff sb.log2BlockSize).mpr sized.shift
  refine ⟨super,size.trans same,?_,?_,?_,sized.inodeSize,sized.revisionZero⟩
  · rwa [size]
  · rw [count,sizedGroups sized]
    exact (coverIff perBlock _ _ _).mpr sized.blocks
  · rw [count,sizedGroups sized]
    exact (coverIff perInode _ _ _).mpr (by rw [Nat.add_sub_cancel]; rfl)

theorem usableSized {sb : SuperBlock} {st : SuperState} (usable : Usable sb st) (perBlock : sb.blocksPerGroup ≠ 0)
    (perInode : sb.inodesPerGroup ≠ 0) (size : st.basic.blockSize = blockSizeOf sb.log2BlockSize)
    (count : st.descriptorCount = descriptorGroups sb) (root : 1 / sb.inodesPerGroup.toNat < descriptorGroups sb) :
    Sized sb := by
  have some := Nat.zero_lt_of_lt root
  obtain ⟨blockSum,byBlocks⟩ := wrappedPos (some.trans_le (Nat.min_le_left _ _))
  obtain ⟨inodeSum,byInodes⟩ := wrappedPos (some.trans_le (Nat.min_le_right _ _))
  have groups : descriptorGroups sb = min (blockGroups sb) (inodeGroups sb) := by
    rw [descriptorGroups,byBlocks,byInodes,blockGroups,inodeGroups]
  have blocks := (coverIff (Nat.pos_of_ne_zero fun zero => perBlock (UInt32.toNat_inj.mp zero)) _ _ _).mp usable.blocks
  have inodes := (coverIff (Nat.pos_of_ne_zero fun zero => perInode (UInt32.toNat_inj.mp zero)) _ _ _).mp usable.inodes
  rw [count,groups] at blocks inodes
  rw [Nat.add_sub_cancel] at inodes
  rw [groups] at root
  have shift : sb.log2BlockSize.toNat < 54 :=
    (blockSizeIff _).mp ⟨size ▸ usable.blockSize,size ▸ usable.positive⟩
  exact ⟨perBlock,perInode,blockSum,inodeSum,shift,root.trans_le (Nat.min_le_right _ _),
    blocks.trans (Nat.min_le_right _ _),inodes.trans (Nat.min_le_left _ _),usable.inodeSize,usable.revisionZero⟩

section
variable (m : Masked) {env : Env} (path : String) {sb : SuperBlock} (world : World)

theorem loadSafe (attributes : BitVec 64) (sized : Sized sb) :
    Safe sb (loadDescriptors env path sb attributes (descriptorGroups sb) world) := by
  have root : 1 / sb.inodesPerGroup.toNat < descriptorGroups sb := by
    rw [sizedGroups sized]
    exact sized.root
  unfold loadDescriptors
  cases fresh : env.fresh world.allocs with
  | none =>
    simp only [alloc,fresh]
    exact .inl (by decide)
  | some table =>
    simp only [alloc,fresh]
    split
    · exact .inl (by decide)
    · obtain ⟨⟨node,left⟩,read⟩ := readInodeSafe env ⟨path,_,descriptorGroups sb,⟨none,attributes,_,0⟩,sb⟩ 2 _
        sized.perInode root
      rw [read,Outcome.retBind]
      exact .inr ⟨_,rfl,sizedUsable sized rfl rfl rfl⟩

theorem loadNeeds (attributes : BitVec 64) (full : env.Full) (all : env.Allocates) (perBlock : sb.blocksPerGroup ≠ 0)
    (perInode : sb.inodesPerGroup ≠ 0)
    (safe : Safe sb (loadDescriptors env path sb attributes (descriptorGroups sb) world)) : Sized sb := by
  obtain ⟨table,fresh⟩ := Option.isSome_iff_exists.mp (all world.allocs)
  simp only [loadDescriptors,alloc,fresh,(readFull full _ _ _ _).1,ne_eq,not_true_eq_false,if_false] at safe
  by_cases outside : descriptorGroups sb ≤ 1 / sb.inodesPerGroup.toNat
  · rw [readInodeFault _ all (by decide) perInode outside] at safe
    exact safe.elim
  · have root := Nat.lt_of_not_le outside
    obtain ⟨⟨node,left⟩,read⟩ := readInodeSafe env ⟨path,_,descriptorGroups sb,⟨none,attributes,_,0⟩,sb⟩ 2 _ perInode root
    rw [read,Outcome.retBind] at safe
    obtain refused | ⟨st,same,usable⟩ := safe
    · exact absurd rfl refused
    · cases Option.some.inj same
      exact usableSized usable perBlock perInode rfl rfl root

theorem mountSafe (mountable : Mountable sb) : Safe sb (mountSuper m env path sb world) := by
  unfold mountSuper
  by_cases sig : sb.sig ≠ 0xEF53
  · rw [if_pos sig]
    exact .inl (by decide)
  have known : (sb.state ≠ 1 ∧ sb.errHandle = 3) ∨ sb.osId.toNat < 5 := by
    obtain other | failed | ⟨examined,_⟩ := mountable
    · exact absurd other sig
    · exact .inl failed
    · exact .inr examined.2
  obtain ⟨⟨r,attributes⟩,run⟩ := (checkSuperReturns m (enabled m) sb).mpr known
  rw [if_neg sig,run,Outcome.retBind]
  by_cases refused : r ≠ 0
  · simp only [if_pos refused]
    exact .inl (by decide)
  have passed : ext2CheckSuper m (enabled m) sb = .ret (0,attributes) := by rw [run,not_not.mp refused]
  obtain ⟨examined,supported⟩ := (checkSuperIff m sb).mp ⟨attributes,passed⟩
  have sized : Sized sb := by
    obtain other | failed | ⟨_,sized⟩ := mountable
    · exact absurd other sig
    · exact absurd failed examined.1
    · exact sized supported
  simp only [if_neg refused,groupsOfEq _ sized.perBlock,groupsOfEq _ sized.perInode,Outcome.retBind]
  exact loadSafe path world attributes sized

theorem mountNeeds (full : env.Full) (all : env.Allocates) (safe : Safe sb (mountSuper m env path sb world)) :
    Mountable sb := by
  unfold mountSuper at safe
  by_cases sig : sb.sig ≠ 0xEF53
  · exact .inl sig
  rw [if_neg sig] at safe
  have known : (sb.state ≠ 1 ∧ sb.errHandle = 3) ∨ sb.osId.toNat < 5 := by
    refine (checkSuperReturns m (enabled m) sb).mp ?_
    cases run : ext2CheckSuper m (enabled m) sb with
    | ret r => exact ⟨r,rfl⟩
    | fault f =>
      rw [run] at safe
      exact safe.elim
    | running =>
      rw [run] at safe
      exact safe.elim
  by_cases failed : sb.state ≠ 1 ∧ sb.errHandle = 3
  · exact .inr (.inl failed)
  have examined : Examined sb := ⟨failed,known.resolve_left failed⟩
  refine .inr (.inr ⟨examined,fun supported => ?_⟩)
  obtain ⟨attributes,run⟩ := (checkSuperIff m sb).mpr ⟨examined,supported⟩
  rw [run,Outcome.retBind] at safe
  have perBlock : sb.blocksPerGroup ≠ 0 := fun zero => by simp [groupsOf,zero,Safe] at safe
  have perInode : sb.inodesPerGroup ≠ 0 := fun zero => by simp [groupsOf,zero,perBlock,Safe] at safe
  simp only [ne_eq,not_true_eq_false,if_false,groupsOfEq _ perBlock,groupsOfEq _ perInode,Outcome.retBind] at safe
  exact loadNeeds path world attributes full all perBlock perInode safe

end

/- Every mount of a partition with the superblock's bytes at 1024. -/
def MountsSafely (m : Masked) (image : Mem) : Prop := ∀ env path opened world, Agree superBytes image 0 world.disk 1024 →
  Safe (.ofBytes image) (initExt2Super m env path opened world)

theorem superRead {env : Env} {world : World} {image : Mem} (same : Agree superBytes image 0 world.disk 1024)
    (whole : (vfsRead env (vfsSeek world 1024) zeros 0 superBytes).1 = superBytes) :
    SuperBlock.ofBytes (vfsRead env (vfsSeek world 1024) zeros 0 superBytes).2.1 = .ofBytes image := by
  apply ofBytesCongr
  intro i low
  have moved : i < 0 + (vfsRead env (vfsSeek world 1024) zeros 0 superBytes).1 := by
    rw [whole,Nat.zero_add]
    exact low
  have held := same i low
  rw [Nat.zero_add] at held
  exact (patchInside (Nat.zero_le i) moved).trans held.symm

theorem initRuns (m : Masked) {env : Env} (path : String) {world : World} {buffer image : Mem}
    (fresh : env.fresh world.allocs = some buffer) (same : Agree superBytes image 0 world.disk 1024)
    (whole : (vfsRead env (vfsSeek (alloc env world).2 1024) zeros 0 superBytes).1 = superBytes) :
    initExt2Super m env path true world = mountSuper m env path (.ofBytes image)
      (vfsRead env (vfsSeek (alloc env world).2 1024) zeros 0 superBytes).2.2 := by
  have read : .ofBytes (vfsRead env (vfsSeek (alloc env world).2 1024) zeros 0 superBytes).2.1 =
      SuperBlock.ofBytes image := superRead same whole
  rw [← read]
  simp only [alloc] at whole
  simp only [initExt2Super,alloc,fresh,Bool.true_eq_false,if_false,if_neg (not_not.mpr whole)]

theorem safeMountable {m : Masked} {image : Mem} (safe : MountsSafely m image) : Mountable (.ofBytes image) := by
  let env : Env := ⟨fun _ _ n => n,fun _ => some zeros⟩
  let world : World := ⟨fun i => image (i - 1024),0,0,0⟩
  have full : env.Full := fun _ _ _ => Nat.le_refl _
  have same : Agree superBytes image 0 world.disk 1024 := fun i _ => by
    change image (0 + i) = image (1024 + i - 1024)
    rw [Nat.zero_add,Nat.add_sub_cancel_left]
  have run := safe env "" true world same
  rw [initRuns m "" rfl same (readFull full _ zeros 0 superBytes).1] at run
  exact mountNeeds m "" _ full (fun _ => rfl) run

/-- A mount is safe over just the superblocks that it refuses before the sizes matter
and those whose sizes fit. -/
theorem mountsSafelyIff (m : Masked) (image : Mem) : MountsSafely m image ↔ Mountable (.ofBytes image) := by
  constructor
  · exact safeMountable
  · intro mountable env path opened world same
    cases fresh : env.fresh world.allocs with
    | none =>
      simp only [initExt2Super,alloc,fresh]
      exact .inl (by decide)
    | some buffer =>
      cases opened with
      | false =>
        simp only [initExt2Super,alloc,fresh]
        exact .inl (by decide)
      | true =>
        by_cases whole : (vfsRead env (vfsSeek (alloc env world).2 1024) zeros 0 superBytes).1 = superBytes
        · rw [initRuns m path fresh same whole]
          exact mountSafe m path _ mountable
        · simp only [alloc] at whole
          simp only [initExt2Super,alloc,fresh,Bool.true_eq_false,if_false,if_pos whole]
          exact .inl (by decide)

theorem emptyGroupsDivided : ¬ ∀ (m : Masked) (image : Mem), MountsSafely m image := by
  intro safe
  let image : Mem := fun i => if i = 56 then 0x53 else if i = 57 then 0xEF else if i = 58 then 1 else 0
  obtain other | failed | ⟨_,sized⟩ := safeMountable (safe .standard image)
  · exact absurd (show (SuperBlock.ofBytes image).sig = 0xEF53 by decide) other
  · exact absurd (show (SuperBlock.ofBytes image).state = 1 by decide) failed.1
  · have supported : Supported (.ofBytes image) := ⟨by decide,by decide,by decide⟩
    exact absurd (show (SuperBlock.ofBytes image).blocksPerGroup = 0 by decide) (sized supported).perBlock

end Kdrivers.Ext2Mount
