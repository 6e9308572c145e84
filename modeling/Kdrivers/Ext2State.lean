import Kdrivers.Bytes
import Kdrivers.IndexTree
import Kdrivers.BitFields

/-! The structures of ext2.h that the drivers read, the driver states of state_defs.h. -/
namespace Kdrivers.Ext2State
open Bytes IndexTree

structure SuperBlock where
  totalInodes : UInt32
  totalBlocks : UInt32
  superblock : UInt32
  log2BlockSize : UInt32
  blocksPerGroup : UInt32
  inodesPerGroup : UInt32
  sig : UInt16
  state : UInt16
  errHandle : UInt16
  osId : UInt32
  verMaj : UInt32
  inodeSize : UInt16
  requiredFeatures : BitVec 32
  writeFeatures : BitVec 32

def word16 (m : Mem) (pos : Nat) : UInt16 := UInt16.ofNat (le16 m pos)
def word32 (m : Mem) (pos : Nat) : UInt32 := UInt32.ofNat (le32 m pos)

def SuperBlock.ofBytes (m : Mem) : SuperBlock where
  totalInodes := word32 m 0
  totalBlocks := word32 m 4
  superblock := word32 m 20
  log2BlockSize := word32 m 24
  blocksPerGroup := word32 m 32
  inodesPerGroup := word32 m 40
  sig := word16 m 56
  state := word16 m 58
  errHandle := word16 m 60
  osId := word32 m 72
  verMaj := word32 m 76
  inodeSize := word16 m 88
  requiredFeatures := BitVec.ofNat 32 (le32 m 96)
  writeFeatures := BitVec.ofNat 32 (le32 m 100)

theorem word16Congr {a b : Mem} {pos : Nat} (same : ∀ i < pos + 2, a i = b i) : word16 a pos = word16 b pos :=
  congrArg _ (le16Congr fun i low => same (pos + i) (by omega))

theorem word32Congr {a b : Mem} {pos : Nat} (same : ∀ i < pos + 4, a i = b i) : word32 a pos = word32 b pos :=
  congrArg _ (le32Congr fun i low => same (pos + i) (by omega))

def superBytes : Nat := 236

theorem ofBytesCongr {a b : Mem} (same : ∀ i < superBytes, a i = b i) : SuperBlock.ofBytes a = SuperBlock.ofBytes b := by
  have narrow (pos : Nat) (inside : pos + 2 ≤ superBytes) : word16 a pos = word16 b pos :=
    word16Congr fun i low => same i (by omega)
  have wide (pos : Nat) (inside : pos + 4 ≤ superBytes) : word32 a pos = word32 b pos :=
    word32Congr fun i low => same i (by omega)
  have bits (pos : Nat) (inside : pos + 4 ≤ superBytes) : le32 a pos = le32 b pos :=
    le32Congr fun i low => same (pos + i) (by omega)
  unfold SuperBlock.ofBytes
  rw [wide 0 (by decide),wide 4 (by decide),wide 20 (by decide),wide 24 (by decide),wide 32 (by decide),
    wide 40 (by decide),narrow 56 (by decide),narrow 58 (by decide),narrow 60 (by decide),wide 72 (by decide),
    wide 76 (by decide),narrow 88 (by decide),bits 96 (by decide),bits 100 (by decide)]

structure Ext2Inode where
  typePerms : UInt16
  sizeLow : UInt32
  dbp : Nat → UInt32
  sibp : UInt32
  dibp : UInt32
  tibp : UInt32

def Ext2Inode.ofBytes (m : Mem) : Ext2Inode where
  typePerms := word16 m 0
  sizeLow := word32 m 4
  dbp i := word32 m (40 + 4 * i)
  sibp := word32 m 88
  dibp := word32 m 92
  tibp := word32 m 96

def Ext2Inode.direct (node : Ext2Inode) (i : Nat) : Nat := (node.dbp i).toNat

def Ext2Inode.top (node : Ext2Inode) : Level → Nat
  | .single => node.sibp.toNat
  | .double => node.dibp.toNat
  | .triple => node.tibp.toNat

theorem topLt (node : Ext2Inode) (l : Level) : node.top l < 2^32 := by
  cases l <;> exact UInt32.toNat_lt _

theorem directLt (node : Ext2Inode) (i : Nat) : node.direct i < 2^32 := UInt32.toNat_lt _

structure BasicState where
  node : Option Ext2Inode
  attributes : BitVec 64
  blockSize : Nat
  inode : Nat

structure SuperState where
  partitionPath : String
  descriptorTable : Mem
  descriptorCount : Nat
  basic : BasicState
  super : SuperBlock

def SuperState.inodeTableStart (st : SuperState) (group : Nat) : Nat := le32 st.descriptorTable (32 * group + 8)

structure NodeState where
  super : SuperState
  basic : BasicState

end Kdrivers.Ext2State
