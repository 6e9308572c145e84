import Kdrivers.Ext2State
import Kdrivers.Outcome
import Kdrivers.Vfs

/-! Mounting (super.c): the feature check, the state made from the superblock, and the
inode lookup in the group descriptor table. -/
namespace Kdrivers.Ext2Super
open Bytes BitFields Vfs Ext2State

-- the system's name is an argument of a message only, and left out
def ext2CheckSuperPast (m : Masked) (attributes : BitVec 64) (sb : SuperBlock) : Int × BitVec 64 :=
  let attributes := if sb.state ≠ 1 then m.write attributes (if sb.errHandle = 2 then 0 else 1) 1 1 else attributes
  if sb.state ≠ 1 ∧ sb.errHandle = 3 then (-2,attributes)
  else if m.read sb.requiredFeatures 0 1 = 1 then (-3,attributes)
  else if m.read sb.requiredFeatures 2 1 = 1 then (-4,attributes)
  else if m.read sb.requiredFeatures 3 1 = 1 then (-5,attributes)
  else
    let attributes := if m.read sb.writeFeatures 0 1 = 1 then m.write attributes 0 1 1 else attributes
    let attributes := if m.read sb.writeFeatures 2 1 = 1 then m.write attributes 0 1 1 else attributes
    (0,attributes)

def ext2CheckSuper (m : Masked) (attributes : BitVec 64) (sb : SuperBlock) : Outcome (Int × BitVec 64) :=
  if ¬ (sb.state ≠ 1 ∧ sb.errHandle = 3) ∧ 5 ≤ sb.osId.toNat then .fault .tableIndex
  else .ret (ext2CheckSuperPast m attributes sb)

-- init_ext2_super enables writing in a zeroed state before the check
def enabled (m : Masked) : BitVec 64 := m.write 0 1 1 1

def ext2ReadInode (env : Env) (st : SuperState) (inode : Nat) (world : World) :
    Outcome (Option Ext2Inode × World) :=
  if inode = 0 then .ret (none,world)
  else match alloc env world with
    | (none,world) => .ret (none,world)
    | (some buffer,world) =>
      if st.super.inodesPerGroup = 0 then .fault .divisionByZero
      else
        let perGroup := st.super.inodesPerGroup.toNat
        let blockGroup := (inode - 1) / perGroup
        let indexInTable := (inode - 1) % perGroup
        if st.descriptorCount ≤ blockGroup then .fault .tableIndex
        else
          let inodeTableAddress := mul64 (st.inodeTableStart blockGroup) st.basic.blockSize
          let inodeOffset := mul64 st.super.inodeSize.toNat indexInTable
          let (_,buffer,world) := vfsRead env (vfsSeek world (add64 inodeTableAddress inodeOffset)) buffer 0
            st.super.inodeSize.toNat
          .ret (some (.ofBytes buffer),world)

def shiftBlockSize : Nat → Nat → Nat
  | 0, size => size
  | i+1, size => shiftBlockSize i (size * 2 % 2^64)

-- the shift counter is an int
def blockSizeOf (log2 : UInt32) : Nat := if 2^31 ≤ log2.toNat then 1024 else shiftBlockSize log2.toNat 1024

def groupsOf (total perGroup : UInt32) : Outcome Nat :=
  if perGroup = 0 then .fault .divisionByZero else .ret ((total + perGroup - 1) / perGroup).toNat

def loadDescriptors (env : Env) (path : String) (sb : SuperBlock) (attributes : BitVec 64) (blockGroups : Nat)
    (world : World) : Outcome (Int × Option SuperState × World) :=
  let blockSize := blockSizeOf sb.log2BlockSize
  match alloc env world with
  | (none,world) => .ret (-7,none,world)
  | (some table,world) =>
    let (n,table,world) := vfsRead env (vfsSeek world (mul64 (1 + sb.superblock).toNat blockSize)) table 0
      (blockGroups * 32)
    if n ≠ blockGroups * 32 then .ret (-8,none,world)
    else do
      let state : SuperState := ⟨path,table,blockGroups,⟨none,attributes,blockSize,0⟩,sb⟩
      let (node,world) ← ext2ReadInode env state 2 world
      .ret (0,some { state with basic := ⟨node,attributes,blockSize,2⟩ },world)

def mountSuper (m : Masked) (env : Env) (path : String) (sb : SuperBlock) (world : World) :
    Outcome (Int × Option SuperState × World) :=
  if sb.sig ≠ 0xEF53 then .ret (-5,none,world)
  else do
    let (r,attributes) ← ext2CheckSuper m (enabled m) sb
    if r ≠ 0 then .ret (-6,none,world)
    else
      let byBlocks ← groupsOf sb.totalBlocks sb.blocksPerGroup
      let byInodes ← groupsOf sb.totalInodes sb.inodesPerGroup
      loadDescriptors env path sb attributes (min byBlocks byInodes) world

-- opened tells whether vfs_open gave a partition
def initExt2Super (m : Masked) (env : Env) (path : String) (opened : Bool) (world : World) :
    Outcome (Int × Option SuperState × World) := match alloc env world with
  | (none,world) => .ret (-2,none,world)
  | (some _,world) =>
    if opened = false then .ret (-3,none,world)
    else
      let (n,buffer,world) := vfsRead env (vfsSeek world 1024) zeros 0 superBytes
      if n ≠ superBytes then .ret (-4,none,world) else mountSuper m env path (.ofBytes buffer) world

def Examined (sb : SuperBlock) : Prop := ¬ (sb.state ≠ 1 ∧ sb.errHandle = 3) ∧ sb.osId.toNat < 5

def Supported (sb : SuperBlock) : Prop :=
  sb.requiredFeatures.getLsbD 0 = false ∧ sb.requiredFeatures.getLsbD 2 = false ∧
    sb.requiredFeatures.getLsbD 3 = false

def Taken (sb : SuperBlock) : Prop := ¬ (sb.state ≠ 1 ∧ sb.errHandle = 3) ∧ Supported sb

def readOnly (sb : SuperBlock) : Bool :=
  (decide (sb.state ≠ 1) && decide (sb.errHandle = 2)) || sb.writeFeatures.getLsbD 0 || sb.writeFeatures.getLsbD 2

theorem enabledBit (m : Masked) : (enabled m).getLsbD 1 = true := by
  rw [enabled,writeBit m 0 1 (by decide)]
  rfl

theorem stateBit (m : Masked) (sb : SuperBlock) :
    (if sb.state ≠ 1 then m.write (enabled m) (if sb.errHandle = 2 then 0 else 1) 1 1 else enabled m).getLsbD 1 =
      !(decide (sb.state ≠ 1) && decide (sb.errHandle = 2)) := by
  by_cases fine : sb.state = 1
  · rw [if_neg (not_not.mpr fine),enabledBit]
    simp [fine]
  · rw [if_pos fine,writeBit m _ _ (by decide)]
    by_cases hold : sb.errHandle = 2 <;> simp [fine,hold]

theorem clearBit (m : Masked) (attributes : BitVec 64) (flag : Bool) :
    (if flag = true then m.write attributes 0 1 1 else attributes).getLsbD 1 = (attributes.getLsbD 1 && !flag) := by
  cases flag with
  | false => simp
  | true =>
    rw [if_pos rfl,writeBit m _ _ (by decide)]
    simp

theorem checkPastRefused {m : Masked} {sb : SuperBlock} (refused : ¬ Taken sb) :
    (ext2CheckSuperPast m (enabled m) sb).1 ≠ 0 := by
  unfold ext2CheckSuperPast
  simp only [readBitOne]
  by_cases failed : sb.state ≠ 1 ∧ sb.errHandle = 3
  · rw [if_pos failed]
    exact (by decide : (-2 : Int) ≠ 0)
  by_cases compressed : sb.requiredFeatures.getLsbD 0 = true
  · rw [if_neg failed,if_pos compressed]
    exact (by decide : (-3 : Int) ≠ 0)
  by_cases replay : sb.requiredFeatures.getLsbD 2 = true
  · rw [if_neg failed,if_neg compressed,if_pos replay]
    exact (by decide : (-4 : Int) ≠ 0)
  by_cases journal : sb.requiredFeatures.getLsbD 3 = true
  · rw [if_neg failed,if_neg compressed,if_neg replay,if_pos journal]
    exact (by decide : (-5 : Int) ≠ 0)
  exact absurd ⟨failed,Bool.eq_false_of_not_eq_true compressed,Bool.eq_false_of_not_eq_true replay,
    Bool.eq_false_of_not_eq_true journal⟩ refused

/-- The check takes just the superblocks without bits 0, 2 and 3 of the required features, and
leaves the permission bit unless something asks for read-only handling. -/
theorem checkPastTaken {m : Masked} {sb : SuperBlock} (taken : Taken sb) :
    ∃ attributes, ext2CheckSuperPast m (enabled m) sb = (0,attributes) ∧ attributes.getLsbD 1 = !readOnly sb := by
  obtain ⟨failed,compressed,replay,journal⟩ := taken
  unfold ext2CheckSuperPast
  simp only [readBitOne]
  rw [if_neg failed,if_neg (ne_true_of_eq_false compressed),if_neg (ne_true_of_eq_false replay),
    if_neg (ne_true_of_eq_false journal)]
  refine ⟨_,rfl,?_⟩
  rw [clearBit,clearBit,stateBit,readOnly]
  simp [Bool.and_assoc]

theorem checkSuperIff (m : Masked) (sb : SuperBlock) :
    (∃ attributes, ext2CheckSuper m (enabled m) sb = .ret (0,attributes)) ↔ Examined sb ∧ Supported sb := by
  unfold ext2CheckSuper
  constructor
  · rintro ⟨attributes,run⟩
    split at run
    · cases run
    · rename_i known
      have taken : Taken sb := by
        by_contra refused
        exact checkPastRefused refused (congrArg Prod.fst (Outcome.ret.inj run))
      exact ⟨⟨taken.1,Nat.lt_of_not_le fun os => known ⟨taken.1,os⟩⟩,taken.2⟩
  · rintro ⟨⟨failed,os⟩,supported⟩
    obtain ⟨attributes,run,_⟩ := checkPastTaken (m := m) ⟨failed,supported⟩
    have known : ¬ (¬ (sb.state ≠ 1 ∧ sb.errHandle = 3) ∧ 5 ≤ sb.osId.toNat) := fun both => Nat.not_le_of_lt os both.2
    rw [if_neg known,run]
    exact ⟨attributes,rfl⟩

theorem checkSuperBit {m : Masked} {sb : SuperBlock} {attributes : BitVec 64}
    (run : ext2CheckSuper m (enabled m) sb = .ret (0,attributes)) : attributes.getLsbD 1 = !readOnly sb := by
  obtain ⟨⟨failed,os⟩,supported⟩ := (checkSuperIff m sb).mp ⟨attributes,run⟩
  obtain ⟨_,past,bit⟩ := checkPastTaken (m := m) ⟨failed,supported⟩
  have known : ¬ (¬ (sb.state ≠ 1 ∧ sb.errHandle = 3) ∧ 5 ≤ sb.osId.toNat) := fun both => Nat.not_le_of_lt os both.2
  rw [ext2CheckSuper,if_neg known,past] at run
  cases run
  exact bit

theorem loadKeeps {env : Env} {path : String} {sb : SuperBlock} {attributes : BitVec 64} {blockGroups : Nat}
    {world after : World} {r : Int} {st : SuperState}
    (run : loadDescriptors env path sb attributes blockGroups world = .ret (r,some st,after)) :
    st.super = sb ∧ st.basic.attributes = attributes ∧ st.descriptorCount = blockGroups := by
  unfold loadDescriptors at run
  cases fresh : env.fresh world.allocs with
  | none =>
    simp only [alloc,fresh] at run
    cases run
  | some table =>
    simp only [alloc,fresh] at run
    split at run
    · cases run
    · obtain ⟨⟨node,now⟩,_,run⟩ := Outcome.bindRet run
      cases run
      exact ⟨rfl,rfl,rfl⟩

theorem mountBit {m : Masked} {env : Env} {path : String} {sb : SuperBlock} {world after : World} {r : Int}
    {st : SuperState} (run : mountSuper m env path sb world = .ret (r,some st,after)) :
    st.basic.attributes.getLsbD 1 = !readOnly st.super := by
  unfold mountSuper at run
  split at run
  · cases run
  · obtain ⟨⟨result,attributes⟩,check,run⟩ := Outcome.bindRet run
    by_cases refused : result ≠ 0
    · simp only [if_pos refused] at run
      cases run
    · simp only [if_neg refused] at run
      obtain ⟨byBlocks,_,run⟩ := Outcome.bindRet run
      obtain ⟨byInodes,_,run⟩ := Outcome.bindRet run
      obtain ⟨rfl,rfl,_⟩ := loadKeeps run
      rw [not_not.mp refused] at check
      exact checkSuperBit check

theorem initMounts {m : Masked} {env : Env} {path : String} {opened : Bool} {world after : World} {r : Int}
    {st : SuperState} (run : initExt2Super m env path opened world = .ret (r,some st,after)) :
    ∃ sb before, mountSuper m env path sb before = .ret (r,some st,after) := by
  unfold initExt2Super at run
  split at run
  · cases run
  · split at run
    · cases run
    · simp only at run
      split at run
      · cases run
      · exact ⟨_,_,run⟩

theorem initBit {m : Masked} {env : Env} {path : String} {opened : Bool} {world after : World} {r : Int}
    {st : SuperState} (run : initExt2Super m env path opened world = .ret (r,some st,after)) :
    st.basic.attributes.getLsbD 1 = !readOnly st.super := by
  obtain ⟨_,_,mounted⟩ := initMounts run
  exact mountBit mounted

def Gated (m : Masked) (sb : SuperBlock) : Prop :=
  ∀ attributes, ext2CheckSuperPast m (enabled m) sb = (0,attributes) →
    sb.requiredFeatures &&& ~~~ 2 = 0 ∧
    (m.read attributes 1 1 = 1 → sb.writeFeatures &&& ~~~ 2 = 0 ∧ ¬ (sb.state ≠ 1 ∧ sb.errHandle = 2))

theorem twoBit (w : Nat) {i : Nat} (set : (BitVec.ofNat w 2).getLsbD i = true) : i = 1 := by
  rw [BitVec.getLsbD_ofNat,Bool.and_eq_true,show 2 = 2^1 from rfl,Nat.testBit_two_pow] at set
  simpa [eq_comm] using set.2

/-- A superblock is gated exactly if it is refused, or has no required feature but bit 1
and, where it may be written, no write feature but bit 1. -/
theorem gatedIff (m : Masked) (sb : SuperBlock) : Gated m sb ↔
    ¬ Taken sb ∨
      ((∀ i, 4 ≤ i → sb.requiredFeatures.getLsbD i = false) ∧
        (readOnly sb = true ∨ ∀ i, 3 ≤ i → sb.writeFeatures.getLsbD i = false)) := by
  constructor
  · intro gated
    by_cases taken : Taken sb
    · obtain ⟨attributes,run,bit⟩ := checkPastTaken (m := m) taken
      obtain ⟨required,written⟩ := gated attributes run
      refine .inr ⟨fun i high => ?_,?_⟩
      · by_contra set
        have := twoBit 32 (onlyBits.mp required i (Bool.eq_true_of_not_eq_false set))
        omega
      · by_cases hold : readOnly sb = true
        · exact .inl hold
        · rw [Bool.eq_false_of_not_eq_true hold] at bit
          obtain ⟨only,_⟩ := written ((readBitOne m _ 1).mpr bit)
          refine .inr fun i high => ?_
          by_contra set
          have := twoBit 32 (onlyBits.mp only i (Bool.eq_true_of_not_eq_false set))
          omega
    · exact .inl taken
  · rintro (refused | ⟨required,written⟩) attributes run
    · exact absurd (congrArg Prod.fst run) (checkPastRefused refused)
    · have taken : Taken sb := by
        by_contra refused
        exact checkPastRefused refused (congrArg Prod.fst run)
      obtain ⟨_,past,bit⟩ := checkPastTaken (m := m) taken
      cases past.symm.trans run
      obtain ⟨_,first,second,third⟩ := taken
      have one : (2 : BitVec 32).getLsbD 1 = true := rfl
      constructor
      · refine onlyBits.mpr fun i set => ?_
        by_cases high : 4 ≤ i
        · rw [required i high] at set
          cases set
        · obtain rfl | rfl | rfl | rfl : i = 0 ∨ i = 1 ∨ i = 2 ∨ i = 3 := by omega
          · exact absurd set (ne_true_of_eq_false first)
          · exact one
          · exact absurd set (ne_true_of_eq_false second)
          · exact absurd set (ne_true_of_eq_false third)
      · intro allowed
        rw [readBitOne,bit] at allowed
        obtain hold | written := written
        · rw [hold] at allowed
          cases allowed
        · have parts : readOnly sb = false := by simpa using allowed
          simp only [readOnly,Bool.or_eq_false_iff] at parts
          refine ⟨onlyBits.mpr fun i set => ?_,fun both => ?_⟩
          · by_cases high : 3 ≤ i
            · rw [written i high] at set
              cases set
            · obtain rfl | rfl | rfl : i = 0 ∨ i = 1 ∨ i = 2 := by omega
              · exact absurd set (ne_true_of_eq_false parts.1.2)
              · exact one
              · exact absurd set (ne_true_of_eq_false parts.2)
          · simp [both.1,both.2] at parts

theorem extentsAccepted : ¬ ∀ (m : Masked) (sb : SuperBlock), Gated m sb := by
  intro gated
  let sb : SuperBlock := { SuperBlock.ofBytes zeros with state := 1, requiredFeatures := 0x40 }
  have taken : Taken sb := ⟨fun failed => failed.1 rfl,by decide,by decide,by decide⟩
  obtain ⟨attributes,run,_⟩ := checkPastTaken (m := .standard) taken
  exact absurd (gated .standard sb attributes run).1 (by decide)

end Kdrivers.Ext2Super
