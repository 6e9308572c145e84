import Kdrivers.TaggedRing
import Kdrivers.NvmeQueue
import Kdrivers.Bytes
import Kdrivers.Outcome
import Kdrivers.Vfs
import Kdrivers.Ext2Traverse
import Kdrivers.IndexTree
import Kdrivers.Ext2Cache
import Kdrivers.Ext2Resolve
import Kdrivers.Ext2ReadOnly
import Kdrivers.Ext2Ledger
import Kdrivers.Ext2Layout
import Kdrivers.Ext2Transfer
import Kdrivers.Ext2WriteRead
import Kdrivers.Ext2Super
import Kdrivers.Ext2Mount
import Kdrivers.NvmeNamespace
import Kdrivers.NvmeInit
import Kdrivers.CString
import Kdrivers.Ext2Directory
import Kdrivers.Ext2File
import Kdrivers.NvmeRead
import Kdrivers.Initramfs
import Kdrivers.InitramfsFile
import Kdrivers.LastWrite
import Kdrivers.RamBuffer
import Kdrivers.Isolation
import Kdrivers.PartitionDummy
import Kdrivers.DriverIndices
import Kdrivers.DriverTables
import Kdrivers.InitResource
import Kdrivers.Ext2Fresh
import Kdrivers.Ext2Progress
import Kdrivers.Ext2Size
import Kdrivers.Ext2Listing
import Kdrivers.Ext2Untrusted
import Kdrivers.Ext2Inodes
import Kdrivers.FirstSet
import Kdrivers.Ext2Allocate
import Kdrivers.NvmeCommands
import Kdrivers.NvmeIdentify
import Kdrivers.NvmeList
import Kdrivers.Ext2Create
import Kdrivers.NvmeCleanup
import Kdrivers.NvmeCommandSets
import Kdrivers.NvmeSlots
import Kdrivers.FindCode
import Kdrivers.InitramfsWalk
import Kdrivers.PyText
import Kdrivers.GroupEnum
import Kdrivers.ArrayStore
import Kdrivers.DiskStack
import Kdrivers.Ext2Files
import Kdrivers.NvmeRegister
import Kdrivers.NvmeReset
import Kdrivers.DriverBuild
import Kdrivers.Ext2Open
import Kdrivers.InitramfsPack
import Kdrivers.Interleave
import Kdrivers.NvmeProcessors
import Kdrivers.NvmeQueued
import Kdrivers.ResourceLife
import Kdrivers.Uart
