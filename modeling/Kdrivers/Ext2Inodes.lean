import Kdrivers.Ext2Mount

/-! Inode numbers (super.c): where the lookup of a mounted filesystem finds the inode of a
number that a directory entry names, trusted or not. -/
namespace Kdrivers.Ext2Inodes
open Bytes BitFields Vfs Ext2State Ext2Super Ext2Mount

section Lookup
variable (st : SuperState) (inode : Nat)

def blockGroup : Nat := (inode - 1) / st.super.inodesPerGroup.toNat
def indexInTable : Nat := (inode - 1) % st.super.inodesPerGroup.toNat

def inodeAddress : Nat :=
  add64 (mul64 (st.inodeTableStart (blockGroup st inode)) st.basic.blockSize)
    (mul64 st.super.inodeSize.toNat (indexInTable st inode))

def inodePlace : Nat :=
  st.inodeTableStart (blockGroup st inode) * st.basic.blockSize + indexInTable st inode * st.super.inodeSize.toNat

def readInodeBytes (env : Env) (world : World) : Outcome (Option Mem × World) :=
  if inode = 0 then .ret (none,world)
  else match alloc env world with
    | (none,world) => .ret (none,world)
    | (some buffer,world) =>
      if st.super.inodesPerGroup = 0 then .fault .divisionByZero
      else if st.descriptorCount ≤ blockGroup st inode then .fault .tableIndex
      else
        let (_,buffer,world) := vfsRead env (vfsSeek world (inodeAddress st inode)) buffer 0 st.super.inodeSize.toNat
        .ret (some buffer,world)

end Lookup

theorem readInodeEq (env : Env) (st : SuperState) (inode : Nat) (world : World) :
    ext2ReadInode env st inode world =
      (readInodeBytes st inode env world).map fun (buffer,world) => (buffer.map Ext2Inode.ofBytes,world) := by
  unfold ext2ReadInode readInodeBytes
  by_cases zero : inode = 0
  · rw [if_pos zero,if_pos zero]
    rfl
  rw [if_neg zero,if_neg zero]
  cases fresh : env.fresh world.allocs with
  | none =>
    simp only [alloc,fresh]
    rfl
  | some buffer =>
    simp only [alloc,fresh]
    split
    · rfl
    change (if st.descriptorCount ≤ blockGroup st inode then _ else _) = _
    by_cases outside : st.descriptorCount ≤ blockGroup st inode
    · rw [if_pos outside,if_pos outside]
      rfl
    · rw [if_neg outside,if_neg outside]
      rfl

/- What the lookup of one number is to do: nothing for the numbers that no inode has, and
for the others the bytes of the inode from its own place. -/
structure Reads (st : SuperState) (inode : Nat) : Prop where
  refused : inode = 0 ∨ st.super.totalInodes.toNat < inode → ∀ env world table count, ∃ after,
    readInodeBytes { st with descriptorTable := table, descriptorCount := count } inode env world = .ret (none,after)
  indexed : 0 < inode → inode ≤ st.super.totalInodes.toNat → blockGroup st inode < st.descriptorCount
  bytes : 0 < inode → inode ≤ st.super.totalInodes.toNat → ∀ env world, env.Full → env.Allocates → ∃ buffer after,
    readInodeBytes st inode env world = .ret (some buffer,after) ∧
      ∀ k < st.super.inodeSize.toNat, buffer k = world.disk (inodePlace st inode + k)

def TablesApart (st : SuperState) : Prop := ∀ g < st.descriptorCount, ∀ h < st.descriptorCount, g ≠ h →
  ∀ x < st.super.inodesPerGroup.toNat * st.super.inodeSize.toNat,
  ∀ y < st.super.inodesPerGroup.toNat * st.super.inodeSize.toNat,
    st.inodeTableStart g * st.basic.blockSize + x ≠ st.inodeTableStart h * st.basic.blockSize + y

def InodesApart (st : SuperState) (i j : Nat) : Prop := i ≠ j → 0 < i → i ≤ st.super.totalInodes.toNat → 0 < j →
  j ≤ st.super.totalInodes.toNat → TablesApart st →
    ∀ x < st.super.inodeSize.toNat, ∀ y < st.super.inodeSize.toNat, inodeAddress st i + x ≠ inodeAddress st j + y

/- A number that is 0, or that an inode in one of the groups has: the blocks make its group,
neither rounded sum wraps, and its place can be addressed. -/
structure InGroups (st : SuperState) (inode : Nat) : Prop where
  counted : inode ≤ st.super.totalInodes.toNat
  inodeSum : st.super.totalInodes.toNat + st.super.inodesPerGroup.toNat ≤ 2^32
  blockSum : st.super.totalBlocks.toNat + st.super.blocksPerGroup.toNat ≤ 2^32
  group : blockGroup st inode < blockGroups st.super
  place : st.super.inodeSize = 0 ∨ inodePlace st inode < 2^64

def Located (st : SuperState) (inode : Nat) : Prop := inode = 0 ∨ InGroups st inode

structure Loaded (st : SuperState) : Prop where
  perInode : st.super.inodesPerGroup ≠ 0
  perBlock : st.super.blocksPerGroup ≠ 0
  count : st.descriptorCount = descriptorGroups st.super

theorem mountLoaded {m : Masked} {env : Env} {path : String} {sb : SuperBlock} {world after : World} {r : Int}
    {st : SuperState} (run : mountSuper m env path sb world = .ret (r,some st,after)) : Loaded st := by
  unfold mountSuper at run
  split at run
  · cases run
  · obtain ⟨⟨result,attributes⟩,_,run⟩ := Outcome.bindRet run
    by_cases refused : result ≠ 0
    · simp only [if_pos refused] at run
      cases run
    · simp only [if_neg refused] at run
      have perBlock : sb.blocksPerGroup ≠ 0 := fun zero => by simp [groupsOf,zero] at run
      have perInode : sb.inodesPerGroup ≠ 0 := fun zero => by simp [groupsOf,zero,perBlock] at run
      rw [groupsOfEq _ perBlock,groupsOfEq _ perInode,Outcome.retBind,Outcome.retBind] at run
      obtain ⟨rfl,_,count⟩ := loadKeeps run
      exact ⟨perInode,perBlock,count⟩

theorem initLoaded {m : Masked} {env : Env} {path : String} {opened : Bool} {world after : World} {r : Int}
    {st : SuperState} (run : initExt2Super m env path opened world = .ret (r,some st,after)) : Loaded st := by
  obtain ⟨_,_,mounted⟩ := initMounts run
  exact mountLoaded mounted

section Numbers
variable {st : SuperState} {inode : Nat}

theorem readsBytes (perInode : st.super.inodesPerGroup ≠ 0) (named : inode ≠ 0)
    (inside : blockGroup st inode < st.descriptorCount) {env : Env} (full : env.Full) (allocates : env.Allocates)
    (world : World) : ∃ buffer after, readInodeBytes st inode env world = .ret (some buffer,after) ∧
      ∀ k < st.super.inodeSize.toNat, buffer k = world.disk (inodeAddress st inode + k) := by
  obtain ⟨fresh,some⟩ := Option.isSome_iff_exists.mp (allocates world.allocs)
  simp only [readInodeBytes,if_neg named,alloc,some,if_neg perInode,if_neg (Nat.not_le_of_lt inside)]
  refine ⟨_,_,rfl,fun k low => ?_⟩
  rw [(readFull full _ _ _ _).2,patchInside (Nat.zero_le k) (by omega)]
  rfl

theorem addressPlace (fits : inodePlace st inode < 2^64) : inodeAddress st inode = inodePlace st inode := by
  unfold inodePlace at fits ⊢
  rw [inodeAddress,Nat.mul_comm (indexInTable st inode)] at *
  rw [mul64Eq (by omega),mul64Eq (by omega),add64Eq fits]

theorem addressLt : inodeAddress st inode < 2^64 := Nat.mod_lt _ (Nat.two_pow_pos 64)

theorem locatedReads (loaded : Loaded st) (located : Located st inode) : Reads st inode := by
  have positive : 0 < st.super.inodesPerGroup.toNat :=
    Nat.pos_of_ne_zero fun zero => loaded.perInode (UInt32.toNat_inj.mp zero)
  have inside (groups : InGroups st inode) (some : 0 < inode) : blockGroup st inode < st.descriptorCount := by
    rw [loaded.count,descriptorGroups,wrappedGroups,wrappedGroups,if_pos groups.blockSum,if_pos groups.inodeSum]
    refine Nat.lt_min.mpr ⟨groups.group,?_⟩
    exact (coverIff positive 1 (st.super.totalInodes.toNat + 1) _).mpr (by rw [Nat.add_sub_cancel]) inode some
      (Nat.lt_succ_of_le groups.counted)
  constructor
  · rintro (rfl | above) env world table count
    · exact ⟨world,rfl⟩
    · obtain rfl | groups := located
      · exact absurd above (Nat.not_lt_zero _)
      · exact absurd groups.counted (Nat.not_le_of_lt above)
  · intro some _
    exact inside (located.resolve_left (Nat.ne_of_gt some)) some
  · intro some _ env world full allocates
    have groups := located.resolve_left (Nat.ne_of_gt some)
    obtain ⟨buffer,after,run,bytes⟩ :=
      readsBytes loaded.perInode (Nat.ne_of_gt some) (inside groups some) full allocates world
    refine ⟨buffer,after,run,fun k low => ?_⟩
    obtain none | fits := groups.place
    · rw [none] at low
      exact absurd low (Nat.not_lt_zero k)
    · rw [bytes k low,addressPlace fits]

theorem readsLocated (loaded : Loaded st) (reads : Reads st inode) : Located st inode := by
  by_cases zero : inode = 0
  · exact .inl zero
  let env : Env := ⟨fun _ _ n => n,fun _ => some zeros⟩
  have full : env.Full := fun _ _ _ => le_rfl
  have counted : inode ≤ st.super.totalInodes.toNat := by
    refine Nat.le_of_not_lt fun above => ?_
    -- with a table long enough the number is looked up
    let longer : SuperState := { st with descriptorTable := zeros, descriptorCount := blockGroup st inode + 1 }
    have inside : blockGroup longer inode < longer.descriptorCount := Nat.lt_succ_self _
    have perInode : longer.super.inodesPerGroup ≠ 0 := loaded.perInode
    obtain ⟨_,_,other,_⟩ := readsBytes perInode zero inside full (fun _ => rfl) ⟨zeros,0,0,0⟩
    obtain ⟨after,run⟩ := reads.refused (.inr above) env ⟨zeros,0,0,0⟩ zeros (blockGroup st inode + 1)
    cases run.symm.trans other
  have some := Nat.pos_of_ne_zero zero
  have group := reads.indexed some counted
  rw [loaded.count] at group
  have pos := Nat.zero_lt_of_lt group
  obtain ⟨blockSum,byBlocks⟩ := wrappedPos (pos.trans_le (Nat.min_le_left _ _))
  obtain ⟨inodeSum,_⟩ := wrappedPos (pos.trans_le (Nat.min_le_right _ _))
  refine .inr ⟨counted,inodeSum,blockSum,?_,?_⟩
  · rw [blockGroups,← byBlocks]
    exact group.trans_le (Nat.min_le_left _ _)
  · refine Classical.or_iff_not_imp_left.mpr fun sized => Nat.lt_of_not_le fun high => ?_
    -- a partition on which the two positions differ
    let world : World := ⟨fun x => if x = inodePlace st inode then 1 else 0,0,0,0⟩
    have first : 0 < st.super.inodeSize.toNat := Nat.pos_of_ne_zero fun zero => sized (UInt16.toNat_inj.mp zero)
    obtain ⟨_,_,run,place⟩ := reads.bytes some counted env world full fun _ => rfl
    obtain ⟨_,_,other,address⟩ := readsBytes loaded.perInode zero (reads.indexed some counted) full (fun _ => rfl) world
    cases run.symm.trans other
    have differ := (place 0 first).symm.trans (address 0 first)
    have low : inodeAddress st inode + 0 ≠ inodePlace st inode := Nat.ne_of_lt (addressLt.trans_le high)
    change (if _ then (1 : UInt8) else 0) = if _ then 1 else 0 at differ
    rw [if_pos (Nat.add_zero _),if_neg low] at differ
    exact absurd differ (by decide)

theorem indexBelow (loaded : Loaded st) (inode : Nat) : indexInTable st inode < st.super.inodesPerGroup.toNat :=
  Nat.mod_lt _ (Nat.pos_of_ne_zero fun zero => loaded.perInode (UInt32.toNat_inj.mp zero))

theorem tableBytes (loaded : Loaded st) (inode : Nat) {x : Nat} (low : x < st.super.inodeSize.toNat) :
    indexInTable st inode * st.super.inodeSize.toNat + x < st.super.inodesPerGroup.toNat * st.super.inodeSize.toNat := by
  have below := Nat.mul_le_mul_right st.super.inodeSize.toNat (indexBelow loaded inode)
  rw [Nat.succ_mul] at below
  omega

theorem locatedApart (loaded : Loaded st) {i j : Nat} (first : Located st i) (second : Located st j) :
    InodesApart st i j := by
  intro apart some one other two tables x low y high
  have sized : st.super.inodeSize ≠ 0 := fun zero => by
    rw [zero] at low
    exact absurd low (Nat.not_lt_zero x)
  have inside := (locatedReads loaded first).indexed some one
  have within := (locatedReads loaded second).indexed other two
  have groups := first.resolve_left (Nat.ne_of_gt some)
  have others := second.resolve_left (Nat.ne_of_gt other)
  rw [addressPlace (groups.place.resolve_left sized),addressPlace (others.place.resolve_left sized),inodePlace,inodePlace,
    Nat.add_assoc,Nat.add_assoc]
  by_cases same : blockGroup st i = blockGroup st j
  · have indices : indexInTable st i ≠ indexInTable st j := by
      intro equal
      have left : st.super.inodesPerGroup.toNat * blockGroup st i + indexInTable st i = i - 1 := Nat.div_add_mod _ _
      have right : st.super.inodesPerGroup.toNat * blockGroup st j + indexInTable st j = j - 1 := Nat.div_add_mod _ _
      rw [same,equal,right] at left
      omega
    rw [same]
    exact fun equal => blocksApart indices low high (Nat.add_left_cancel equal)
  · exact tables _ inside _ within same _ (tableBytes loaded i low) _ (tableBytes loaded j high)

end Numbers

/-- After a mount any two numbers are looked up as they should be, without a common byte,
exactly when both are 0 or the number of an inode in a group that the blocks make. -/
theorem locatedIff {m : Masked} {env : Env} {path : String} {opened : Bool} {world after : World} {st : SuperState}
    (mounted : initExt2Super m env path opened world = .ret (0,some st,after)) (i j : UInt32) :
    (Reads st i.toNat ∧ Reads st j.toNat ∧ InodesApart st i.toNat j.toNat) ↔ Located st i.toNat ∧ Located st j.toNat := by
  have loaded := initLoaded mounted
  constructor
  · rintro ⟨first,second,_⟩
    exact ⟨readsLocated loaded first,readsLocated loaded second⟩
  · rintro ⟨first,second⟩
    exact ⟨locatedReads loaded first,locatedReads loaded second,locatedApart loaded first second⟩

def smallBytes : List (Nat × UInt8) :=
  [(1024,16),(1028,64),(1044,1),(1056,64),(1064,16),(1080,0x53),(1081,0xEF),(1082,1),(1112,128),(2056,5)]

def smallWorld : World := ⟨fun a => (smallBytes.lookup a).getD 0,0,0,0⟩
def smallEnv : Env := ⟨fun _ _ n => n,fun _ => some zeros⟩

def smallMount : Outcome (Int × Option SuperState × World) := initExt2Super .standard smallEnv "" true smallWorld

theorem smallMounted : ∃ st after, smallMount = .ret (0,some st,after) ∧ st.super.totalInodes = 16 ∧
    st.super.inodesPerGroup = 16 ∧ st.super.totalBlocks = 64 ∧ st.super.blocksPerGroup = 64 ∧
    st.super.inodeSize = 128 ∧ st.basic.blockSize = 1024 ∧ st.inodeTableStart 0 = 5 :=
  ⟨_,_,rfl,rfl,rfl,rfl,rfl,rfl,rfl,rfl⟩

theorem smallLocated : ∃ st after, smallMount = .ret (0,some st,after) ∧
    Reads st 1 ∧ Reads st 16 ∧ InodesApart st 1 16 := by
  obtain ⟨st,after,run,inodes,perInode,blocks,perBlock,size,bytes,start⟩ := smallMounted
  have groups (i : Nat) (low : i - 1 < 16) (counted : i ≤ 16) : InGroups st i := by
    have group : blockGroup st i = 0 := by
      rw [blockGroup,perInode]
      exact Nat.div_eq_of_lt low
    refine ⟨by rwa [inodes],by rw [inodes,perInode]; decide,by rw [blocks,perBlock]; decide,?_,.inr ?_⟩
    · rw [group,blockGroups,blocks,perBlock]
      decide
    · have index : indexInTable st i = i - 1 := by
        rw [indexInTable,perInode]
        exact Nat.mod_eq_of_lt low
      have low64 : 5 * 1024 + (i - 1) * 128 < 2^64 := by omega
      rw [inodePlace,group,start,bytes,index,size]
      exact low64
  exact ⟨st,after,run,(locatedIff run 1 16).mpr
    ⟨.inr (groups 1 (by decide) (by decide)),.inr (groups 16 (by decide) (by decide))⟩⟩

theorem pastLastInode : ¬ ∀ (m : Masked) (env : Env) (path : String) (opened : Bool) (world after : World) (st : SuperState),
    initExt2Super m env path opened world = .ret (0,some st,after) →
      ∀ i j : UInt32, Reads st i.toNat ∧ Reads st j.toNat ∧ InodesApart st i.toNat j.toNat := by
  intro all
  obtain ⟨st,after,run,inodes,_⟩ := smallMounted
  obtain zero | groups := readsLocated (initLoaded run) (all _ _ _ _ _ _ _ run 17 17).1
  · exact absurd zero (by decide)
  · have counted := groups.counted
    rw [inodes] at counted
    exact absurd counted (by decide)

end Kdrivers.Ext2Inodes
