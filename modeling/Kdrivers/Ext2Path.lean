import Kdrivers.ArrayStore
import Kdrivers.Ext2File
import Kdrivers.Ext2Inodes

/-! Paths below a mounted superblock, name by name through directories that are opened
(super.c, directory.c): they lead where the directories on the partition lead. -/
namespace Kdrivers.Ext2Path
open Bytes BitFields CString Vfs IndexTree Ext2State Ext2Resolve Ext2Transfer Ext2Super Ext2Directory Ext2File Ext2Inodes ArrayStore

inductive Handle where
  | super (state : SuperState)
  | directory (state : NodeState)

def Handle.basic : Handle → BasicState
  | .super state => state.basic
  | .directory state => state.basic

def Handle.above : Handle → SuperState
  | .super state => state
  | .directory state => state.super

section
variable (env : Env) (fuel : Nat)

def Handle.locate : Handle → Mem → World → Outcome (Option Ext2LocateArgs × World)
  | .super state => locateExt2Super env fuel state
  | .directory state => locateExt2Directory env fuel state

def Handle.stat : Handle → Mem → World → Outcome (Int × Option UInt16 × World)
  | .super state => statExt2Super env fuel state
  | .directory state => statExt2Directory env fuel state

def openPath : Handle → List Name → World → Outcome (Option Handle × World)
  | handle,[],world => .ret (some handle,world)
  | handle,name::rest,world => do
    let (args,world) ← handle.locate env fuel (text name.bytes) world
    match args with
    | none => .ret (none,world)
    | some args => match initExt2Directory env true args world with
      | (_,none,world) => .ret (none,world)
      | (_,some state,world) => openPath (.directory state) rest world

end

def inodeAt (super : SuperState) (image : Mem) (n : Nat) : Ext2Inode := .ofBytes (view image (inodePlace super n))

structure Tree (super : SuperState) (image : Mem) (dirs : Nat → Option (List (List Record))) : Prop where
  whole : 128 ≤ super.super.inodeSize.toNat
  sized : 4 ≤ super.basic.blockSize
  short : super.basic.blockSize < 2^64
  fits : ∀ n blocks, dirs n = some blocks → (blocks.length + 1) * super.basic.blockSize ≤ 2^64
  holding : ∀ n blocks, dirs n = some blocks → Holding super.basic (inodeAt super image n) image 0 blocks
  within : ∀ n blocks, dirs n = some blocks → ∀ x, DataOf super.basic (inodeAt super image n) image x →
    (x + 1) * super.basic.blockSize ≤ 2^64

/- The inode that a directory has under a name, 0 for none, and no record before it that the
search would take for it. -/
structure Has (records : List Record) (name : Name) (inode : Nat) : Prop where
  answer : Answer name records inode
  single : ∀ r ∈ records, r.name = name → r.inode ≠ 0 → r.inode = inode
  clear : Clear name records

inductive Leads (super : SuperState) (dirs : Nat → Option (List (List Record))) : Nat → List Name → Nat → Prop where
  | here {n : Nat} : Leads super dirs n [] n
  | into {n child last : Nat} {name : Name} {rest : List Name} {blocks : List (List Record)} (held : dirs n = some blocks)
      (has : Has blocks.flatten name child) (inode : InGroups super child) (real : child ≠ 0)
      (tail : Leads super dirs child rest last) : Leads super dirs n (name::rest) last

theorem hasOutcome {records : List Record} {name : Name} {inode : Nat} (has : Has records name inode) :
    outcome name records = inode := by
  obtain ⟨live,r,mem,same,number⟩ | ⟨zero,none⟩ := (answerIff name records).mpr has.clear
  · exact number.symm.trans (has.single r mem same (number ▸ live))
  · obtain ⟨live,r,mem,same,number⟩ | ⟨lost,_⟩ := has.answer
    · exact absurd (number.symm.trans (none r mem same)) live
    · rw [zero,lost]

structure Alike (a b : Ext2Inode) : Prop where
  typePerms : a.typePerms = b.typePerms
  sizeLow : a.sizeLow = b.sizeLow
  direct : ∀ i < 12, a.direct i = b.direct i
  top : a.top = b.top

theorem bytesAlike {a b : Mem} (same : ∀ k < 128, a k = b k) : Alike (.ofBytes a) (.ofBytes b) := by
  have narrow (pos : Nat) (inside : pos + 2 ≤ 128) : word16 a pos = word16 b pos :=
    word16Congr fun i low => same i (by omega)
  have wide (pos : Nat) (inside : pos + 4 ≤ 128) : word32 a pos = word32 b pos :=
    word32Congr fun i low => same i (by omega)
  refine ⟨narrow 0 (by decide),wide 4 (by decide),fun i low => congrArg UInt32.toNat (wide _ (by omega)),?_⟩
  funext l
  cases l
  · exact congrArg UInt32.toNat (wide 88 (by decide))
  · exact congrArg UInt32.toNat (wide 92 (by decide))
  · exact congrArg UInt32.toNat (wide 96 (by decide))

theorem lookupAlike {a b : Ext2Inode} (alike : Alike a b) (entry : Nat → Nat → Nat) {q : Path}
    (near : ∀ i, q = .direct i → i < 12) : lookup (roots a) entry q = lookup (roots b) entry q := by
  cases q with
  | direct i => exact congrArg follow (alike.direct i (near i rfl))
  | single i => simp only [lookup,roots,alike.top]
  | double i j => simp only [lookup,roots,alike.top]
  | triple i j k => simp only [lookup,roots,alike.top]

theorem placeNear {bs index i : Nat} (direct : place bs index = .direct i) : i < 12 := by
  unfold place at direct
  dsimp only at direct
  split_ifs at direct with low
  cases direct
  exact low

section
variable {st dir : BasicState} {a b : Ext2Inode} {image : Mem}

theorem entryAlike (size : dir.blockSize = st.blockSize) (image : Mem) : entryAt dir image = entryAt st image := by
  funext t i
  rw [entryAt,entryAt,Ext2Cache.addr,Ext2Cache.addr,size]

theorem resolvedAlike (size : dir.blockSize = st.blockSize) (alike : Alike a b) (image : Mem) (k : Nat) :
    resolved dir a image k = resolved st b image k := by
  rw [resolved,resolved,entryAlike size,size]
  exact lookupAlike alike _ fun i => placeNear

theorem holdingAlike (size : dir.blockSize = st.blockSize) (alike : Alike a b) {k : Nat} {blocks : List (List Record)}
    (holding : Holding st b image k blocks) : Holding dir a image k blocks := by
  induction holding with
  | done missing => exact .done (by rwa [resolvedAlike size alike])
  | block here tiled _ ih =>
    refine .block (by rwa [resolvedAlike size alike]) ?_ ih
    rwa [size]

theorem dataAlike (size : dir.blockSize = st.blockSize) (alike : Alike a b) {x : Nat} (data : DataOf dir a image x) :
    DataOf st b image x := by
  obtain ⟨q,within,found⟩ := data
  rw [size] at within
  refine ⟨q,within,?_⟩
  rw [← entryAlike size,← found]
  refine (lookupAlike alike _ fun i direct => ?_).symm
  subst direct
  exact within

end

section
variable {env : Env}

theorem listKeeps (full : env.Full) (allocates : env.Allocates) {dir : BasicState} {node : Ext2Inode} {image : Mem}
    (sized : 4 ≤ dir.blockSize) (short : dir.blockSize < 2^64) (held : dir.node = some node)
    (within : ∀ x, DataOf dir node image x → (x + 1) * dir.blockSize ≤ 2^64) (filename : Name) {k : Nat}
    {blocks : List (List Record)} (holding : Holding dir node image k blocks)
    (fits : (k + blocks.length + 1) * dir.blockSize ≤ 2^64) (found : (firstPrefix filename blocks.flatten).isSome = true)
    {world : World} (disk : world.disk = image) (data : Mem) :
    ∃ after, after.disk = image ∧ ∃ enough, ∀ turns ≥ enough, ∀ fuel ≥ enough,
      listLoop env dir (callbackGetInodeInDir (text filename.bytes)) turns fuel (some data) (k * dir.blockSize) 0 world =
        .ret (outcome filename blocks.flatten,after) := by
  induction holding generalizing world data with
  | done missing => cases found
  | @block k block records rest resolves tiled tail ih =>
    subst disk
    have here : (k + 1) * dir.blockSize ≤ 2^64 := (Nat.mul_le_mul_right _ (by omega)).trans fits
    obtain ⟨enough,n,after,r,run,_,whole⟩ := readBlock full allocates sized within held here short data
    obtain ⟨size,kept,bytes⟩ := whole block resolves
    have scan := scanFinds (tiledCongr bytes tiled) filename (show dir.blockSize ≤ 0 + dir.blockSize by omega)
    by_cases stops : (firstPrefix filename records).isSome = true
    · refine ⟨after,kept,enough + 1,fun turns many fuel more => ?_⟩
      obtain ⟨j,rfl⟩ := Nat.exists_eq_add_of_le (Nat.le_of_succ_le many)
      obtain ⟨l,rfl⟩ := Nat.exists_eq_add_of_le' (Nat.le_trans (Nat.le_add_left 1 enough) more)
      rw [listLoop,run j,Outcome.retBind]
      simp only [size,if_neg (show dir.blockSize ≠ 0 by omega),scan,List.flatten_cons,outcomeAppend,if_pos stops]
    · have none : firstPrefix filename records = none := by simpa using stops
      have zero : outcome filename records = 0 := by rw [outcome,none]
      rw [List.length_cons,← Nat.add_assoc,Nat.add_right_comm k] at fits
      have rest_ : (firstPrefix filename rest.flatten).isSome = true := by
        rw [List.flatten_cons,firstPrefix,List.find?_append] at found
        change ((firstPrefix filename records).or (firstPrefix filename rest.flatten)).isSome = true at found
        rwa [none] at found
      obtain ⟨last,same,later,ends⟩ := ih fits rest_ kept r
      refine ⟨last,same,max enough later + 1,fun turns many fuel more => ?_⟩
      obtain ⟨j,rfl⟩ := Nat.exists_eq_add_of_le (show enough ≤ turns by omega)
      obtain ⟨l,rfl⟩ := Nat.exists_eq_add_of_le' (show 1 ≤ fuel by omega)
      have next : add64 (k * dir.blockSize) dir.blockSize = (k + 1) * dir.blockSize := by
        have two : (k + 1 + 1) * dir.blockSize ≤ 2^64 := (Nat.mul_le_mul_right _ (by omega)).trans fits
        rw [Nat.succ_mul,Nat.succ_mul] at two
        rw [Nat.succ_mul]
        exact add64Eq (by omega)
      rw [listLoop,run j,Outcome.retBind]
      simp only [size,if_neg (show dir.blockSize ≠ 0 by omega),scan,List.flatten_cons,outcomeAppend,none,
        Option.isSome_none,Bool.false_eq_true,if_false,zero,next]
      exact ends (enough + j) (by omega) l (by omega)

theorem readInodeKeeps {super : SuperState} {n : Nat} {world after : World} {r : Option Mem}
    (run : readInodeBytes super n env world = .ret (r,after)) : after.disk = world.disk := by
  unfold readInodeBytes at run
  split at run
  · cases run
    rfl
  cases fresh : env.fresh world.allocs with
  | none =>
    simp only [alloc,fresh] at run
    cases run
    rfl
  | some buffer =>
    simp only [alloc,fresh] at run
    split at run
    · cases run
    split at run
    · cases run
    · cases run
      rfl

theorem inodeReads (full : env.Full) (allocates : env.Allocates) {super : SuperState} (loaded : Loaded super)
    (whole : 128 ≤ super.super.inodeSize.toNat) {n : Nat} (groups : InGroups super n) (real : n ≠ 0) (world : World) :
    ∃ node after, ext2ReadInode env super n world = .ret (some node,after) ∧ Alike node (inodeAt super world.disk n) ∧
      after.disk = world.disk := by
  have pos := Nat.pos_of_ne_zero real
  obtain ⟨buffer,after,run,bytes⟩ := (locatedReads loaded (.inr groups)).bytes pos groups.counted env world full allocates
  refine ⟨.ofBytes buffer,after,?_,bytesAlike fun k low => bytes k (by omega),readInodeKeeps run⟩
  rw [readInodeEq,run]
  rfl

structure Opened (super : SuperState) (image : Mem) (handle : Handle) (n : Nat) : Prop where
  above : handle.above = super
  size : handle.basic.blockSize = super.basic.blockSize
  node : ∃ node, handle.basic.node = some node ∧ Alike node (inodeAt super image n)

theorem locateEq (fuel : Nat) (handle : Handle) : handle.locate env fuel = locateIn env fuel handle.basic handle.above := by
  cases handle <;> rfl

theorem statEq (fuel : Nat) (handle : Handle) : handle.stat env fuel = statIn env fuel handle.basic handle.above := by
  cases handle <;> rfl

section
variable {super : SuperState} {image : Mem} {dirs : Nat → Option (List (List Record))} {handle : Handle} {n : Nat}
  {blocks : List (List Record)} {name : Name}

theorem openedListed (full : env.Full) (allocates : env.Allocates) (tree : Tree super image dirs)
    (opened : Opened super image handle n) (held : dirs n = some blocks) : Listed env handle.basic image blocks := by
  obtain ⟨node,at_,alike⟩ := opened.node
  have size := opened.size
  refine ⟨full,allocates,?_,?_,?_,node,at_,holdingAlike size alike (tree.holding n blocks held),fun x data => ?_⟩
  · rw [size]
    exact tree.sized
  · rw [size]
    exact tree.short
  · rw [size]
    exact tree.fits n blocks held
  · rw [size]
    exact tree.within n blocks held x (dataAlike size alike data)

theorem outcomeFound {records : List Record} (real : outcome name records ≠ 0) :
    (firstPrefix name records).isSome = true := by
  unfold outcome at real
  cases first : firstPrefix name records with
  | none =>
    rw [first] at real
    exact absurd rfl real
  | some r => rfl

theorem searchFinds (full : env.Full) (allocates : env.Allocates) (tree : Tree super image dirs)
    (opened : Opened super image handle n) (held : dirs n = some blocks) {inode : Nat}
    (has : Has blocks.flatten name inode) (real : inode ≠ 0) {now : World} (disk : now.disk = image) :
    ∃ after, after.disk = image ∧
      Returns (fun fuel => ext2GetInodeInDir env fuel handle.basic (text name.bytes) now) (inode,after) := by
  have listed := openedListed full allocates tree opened held
  obtain ⟨node,at_,holding,within⟩ := listed.node
  obtain ⟨buffer,fresh⟩ := Option.isSome_iff_exists.mp (allocates now.allocs)
  have found : (firstPrefix name blocks.flatten).isSome = true := outcomeFound (by rwa [hasOutcome has])
  obtain ⟨after,kept,enough,ends⟩ := listKeeps full allocates listed.sized listed.short at_ within name holding
    (by rw [Nat.zero_add]; exact listed.fits) found ((allocDisk env now).trans disk) buffer
  refine ⟨after,kept,enough,fun fuel more => ?_⟩
  have run := ends fuel more fuel more
  rw [Nat.zero_mul,hasOutcome has] at run
  dsimp only
  rw [ext2GetInodeInDir,ext2ListDirectory,← run]
  simp only [alloc,fresh]

theorem locateFinds (full : env.Full) (allocates : env.Allocates) (loaded : Loaded super) (tree : Tree super image dirs)
    (opened : Opened super image handle n) (held : dirs n = some blocks) {inode : Nat}
    (has : Has blocks.flatten name inode) (groups : InGroups super inode) (real : inode ≠ 0) {now : World}
    (disk : now.disk = image) : ∃ node after, Alike node (inodeAt super image inode) ∧ after.disk = image ∧
      Returns (fun fuel => handle.locate env fuel (text name.bytes) now) (some ⟨some node,super,inode⟩,after) := by
  obtain ⟨buffer,fresh⟩ := Option.isSome_iff_exists.mp (allocates now.allocs)
  obtain ⟨found,kept,search⟩ := searchFinds full allocates tree opened held has real ((allocDisk env now).trans disk)
  obtain ⟨node,after,read,alike,same⟩ := inodeReads full allocates loaded tree.whole groups real found
  rw [kept] at alike same
  refine ⟨node,after,alike,same,?_⟩
  obtain ⟨enough,runs⟩ := search
  have word : inode % 2^32 = inode := Nat.mod_eq_of_lt (groups.counted.trans_lt (UInt32.toNat_lt _))
  refine ⟨enough,fun fuel more => ?_⟩
  have run := runs fuel more
  simp only [alloc] at run
  dsimp only
  rw [locateEq,opened.above]
  simp only [locateIn,alloc,fresh,run,Outcome.retBind,locateInode,read,word]

theorem statFinds (full : env.Full) (allocates : env.Allocates) (loaded : Loaded super) (tree : Tree super image dirs)
    (opened : Opened super image handle n) (held : dirs n = some blocks) {inode : Nat}
    (has : Has blocks.flatten name inode) (groups : InGroups super inode) (real : inode ≠ 0) {now : World}
    (disk : now.disk = image) : ∃ after, after.disk = image ∧
      Returns (fun fuel => handle.stat env fuel (text name.bytes) now) (0,some (inodeAt super image inode).typePerms,after) := by
  obtain ⟨found,kept,enough,runs⟩ := searchFinds full allocates tree opened held has real disk
  obtain ⟨node,after,read,alike,same⟩ := inodeReads full allocates loaded tree.whole groups real found
  rw [kept] at alike same
  refine ⟨after,same,enough,fun fuel more => ?_⟩
  have run := runs fuel more
  dsimp only at run ⊢
  rw [statEq,opened.above,statIn,run,← alike.typePerms]
  simp only [Outcome.retBind,statInode,read]

theorem pathOpens (full : env.Full) (allocates : env.Allocates) (loaded : Loaded super) (tree : Tree super image dirs)
    {names : List Name} {last : Nat} (leads : Leads super dirs n names last) {handle : Handle}
    (opened : Opened super image handle n) {now : World} (disk : now.disk = image) : ∃ handle' after,
      Opened super image handle' last ∧ after.disk = image ∧
      Returns (fun fuel => openPath env fuel handle names now) (some handle',after) := by
  induction leads generalizing handle now with
  | here => exact ⟨handle,now,opened,disk,0,fun _ _ => rfl⟩
  | @into n child last name rest blocks held has groups real _ ih =>
    obtain ⟨node,found,alike,kept,locates⟩ := locateFinds full allocates loaded tree opened held has groups real disk
    obtain ⟨memory,fresh⟩ := Option.isSome_iff_exists.mp (allocates found.allocs)
    have below : Opened super image (.directory ⟨super,⟨some node,attributesOf memory,super.basic.blockSize,child⟩⟩)
        child := ⟨rfl,rfl,node,rfl,alike⟩
    obtain ⟨handle',after,leads,same,opens⟩ := ih below ((allocDisk env found).trans kept)
    refine ⟨handle',after,leads,same,returnsBind locates ?_⟩
    simp only [initExt2Directory,initNode,alloc,fresh]
    exact opens

theorem mountOpens {m : Masked} (full : env.Full) (allocates : env.Allocates) {path : String} {opened : Bool}
    {first world : World} (mounted : initExt2Super m env path opened first = .ret (0,some super,world))
    (whole : 128 ≤ super.super.inodeSize.toNat) (root : InGroups super 2) :
    Opened super world.disk (.super super) 2 := by
  refine ⟨rfl,rfl,?_⟩
  have loaded := initLoaded mounted
  obtain ⟨sb,before,run⟩ := initMounts mounted
  unfold mountSuper at run
  split at run
  · cases run
  obtain ⟨⟨r,attributes⟩,_,run⟩ := Outcome.bindRet run
  by_cases refused : r ≠ 0
  · simp only [if_pos refused] at run
    cases run
  simp only [if_neg refused] at run
  obtain ⟨byBlocks,_,run⟩ := Outcome.bindRet run
  obtain ⟨byInodes,_,run⟩ := Outcome.bindRet run
  obtain ⟨table,fresh⟩ := Option.isSome_iff_exists.mp (allocates before.allocs)
  simp only [loadDescriptors,alloc,fresh] at run
  split at run
  · cases run
  obtain ⟨⟨held,now⟩,read,run⟩ := Outcome.bindRet run
  cases run
  obtain ⟨node,after,again,alike,same⟩ := inodeReads full allocates (n := 2)
    ⟨loaded.perInode,loaded.perBlock,loaded.count⟩ whole ⟨root.counted,root.inodeSum,root.blockSum,root.group,root.place⟩
    (by decide) _
  cases again.symm.trans read
  rw [same]
  exact ⟨node,rfl,alike⟩

end

end

def nestedBytes : List (Nat × UInt8) := [(1024,32),(1028,64),(1044,1),(1057,32),(1064,32),(1080,0x53),(1081,0xEF),(1082,1),
  (1112,128),(2056,3),(3240,10),(3624,11),(3712,0xA4),(3713,0x81),(3752,12),(10240,5),(10245,4),(10246,1),(10248,100),(11264,6),
  (11269,4),(11270,1),(11272,102),(12288,104),(12289,105)]

def nestedWorld : World := ⟨fun i => (nestedBytes.lookup i).getD 0,0,0,0⟩
def nestedEnv : Env := ⟨fun _ _ n => n,fun _ => some fun _ => 255⟩

def dName : Name := ⟨[100],by simp⟩
def fName : Name := ⟨[102],by simp⟩
def dRecord : Record := ⟨5,1024,dName,by decide⟩
def fRecord : Record := ⟨6,1024,fName,by decide⟩

def nestedDirs (n : Nat) : Option (List (List Record)) :=
  if n = 2 then some [[dRecord]] else if n = 5 then some [[fRecord]] else none

theorem hasOnly (r : Record) (real : r.inode ≠ 0) : Has [r] r.name r.inode := by
  refine ⟨.inl ⟨real,r,List.mem_singleton_self r,rfl,rfl⟩,fun s mem _ _ => ?_,fun s first => ?_⟩
  · rw [List.mem_singleton.mp mem]
  · rw [List.mem_singleton.mp (List.mem_of_find?_eq_some first),if_neg real]
    exact ⟨r,List.mem_singleton_self r,rfl,rfl⟩

def nestedState : BasicState := ⟨none,0,1024,0⟩

theorem nestedHolds (r : Record) {node : Ext2Inode} {block : Nat}
    (here : resolved nestedState node nestedWorld.disk 0 = some block)
    (missing : resolved nestedState node nestedWorld.disk 1 = none) (size : r.totalSize = 1024)
    (record : r.Held (.ofBytes (view nestedWorld.disk (block * 1024)))) :
    Holding nestedState node nestedWorld.disk 0 [[r]] := by
  refine .block here (.record ?_ ?_) (.done missing)
  · rwa [viewZero]
  · rw [Nat.zero_add,size]
    exact .done

theorem nestedMounted : ∃ super world, initExt2Super .standard nestedEnv "" true nestedWorld = .ret (0,some super,world) ∧
    Tree super world.disk nestedDirs ∧ (∀ n ≤ 32, InGroups super n) ∧ Leads super nestedDirs 2 [dName] 5 ∧
      inodeAt super world.disk 6 = .ofBytes (view nestedWorld.disk 3712) ∧ super.basic.blockSize = 1024 ∧
      world.disk = nestedWorld.disk := by
  obtain ⟨super,world,mounted,inodes,perInode,blocks,perBlock,size,bytes,start,disk⟩ : ∃ super world,
      initExt2Super .standard nestedEnv "" true nestedWorld = .ret (0,some super,world) ∧ super.super.totalInodes = 32 ∧
        super.super.inodesPerGroup = 32 ∧ super.super.totalBlocks = 64 ∧ super.super.blocksPerGroup = 8192 ∧
        super.super.inodeSize = 128 ∧ super.basic.blockSize = 1024 ∧ super.inodeTableStart 0 = 3 ∧
        world.disk = nestedWorld.disk := ⟨_,_,rfl,rfl,rfl,rfl,rfl,rfl,rfl,rfl,rfl⟩
  have place (n : Nat) (low : n - 1 < 32) : inodePlace super n = 3072 + (n - 1) * 128 := by
    rw [inodePlace,blockGroup,indexInTable,perInode,size,bytes]
    change super.inodeTableStart ((n - 1) / 32) * 1024 + (n - 1) % 32 * 128 = _
    rw [Nat.div_eq_of_lt low,Nat.mod_eq_of_lt low,start]
  have groups (n : Nat) (counted : n ≤ 32) : InGroups super n := by
    have low : n - 1 < 32 := by omega
    refine ⟨by rwa [inodes],by rw [inodes,perInode]; decide,by rw [blocks,perBlock]; decide,?_,.inr ?_⟩
    · rw [blockGroup,perInode,Ext2Mount.blockGroups,blocks,perBlock]
      change (n - 1) / 32 < 1
      omega
    · rw [place n low]
      omega
  have second : inodeAt super world.disk 2 = .ofBytes (view nestedWorld.disk 3200) := by
    rw [inodeAt,place 2 (by decide),disk]
  have fifth : inodeAt super world.disk 5 = .ofBytes (view nestedWorld.disk 3584) := by
    rw [inodeAt,place 5 (by decide),disk]
  have tree : Tree super world.disk nestedDirs := by
    have cases_ {n : Nat} {blocks : List (List Record)} (held : nestedDirs n = some blocks) :
        (n = 2 ∧ blocks = [[dRecord]]) ∨ (n = 5 ∧ blocks = [[fRecord]]) := by
      unfold nestedDirs at held
      split_ifs at held with root below
      · exact .inl ⟨root,(Option.some.inj held).symm⟩
      · exact .inr ⟨below,(Option.some.inj held).symm⟩
    refine ⟨by rw [size]; decide,by rw [bytes]; decide,by rw [bytes]; decide,fun n blocks held => ?_,
      fun n blocks held => ?_,fun n blocks held x data => ?_⟩
    · rw [bytes]
      obtain ⟨_,rfl⟩ | ⟨_,rfl⟩ := cases_ held <;> decide
    · have alike (node : Ext2Inode) : Alike node node := ⟨rfl,rfl,fun _ _ => rfl,rfl⟩
      obtain ⟨rfl,rfl⟩ | ⟨rfl,rfl⟩ := cases_ held
      · rw [second,disk]
        refine holdingAlike bytes (alike _) (nestedHolds dRecord rfl rfl rfl ⟨rfl,rfl,rfl,?_⟩)
        unfold Starts
        decide
      · rw [fifth,disk]
        refine holdingAlike bytes (alike _) (nestedHolds fRecord rfl rfl rfl ⟨rfl,rfl,rfl,?_⟩)
        unfold Starts
        decide
    · have low := dataLt data
      rw [bytes]
      omega
  have leads : Leads super nestedDirs 2 [dName] 5 :=
    .into rfl (hasOnly dRecord (by decide)) (groups 5 (by decide)) (by decide) .here
  refine ⟨super,world,mounted,tree,groups,leads,?_,bytes,disk⟩
  rw [inodeAt,place 6 (by decide),disk]

end Kdrivers.Ext2Path
