import Mathlib.Data.Finset.Max
import Kdrivers.FirstSet
import Kdrivers.Ext2Fresh
import Kdrivers.Ext2Inodes

/-! The allocation of blocks (super.c): the search for a group, and the search of its bitmap
for bits that are clear, word by word. -/
namespace Kdrivers.Ext2Allocate
open Bytes BitFields FirstSet Vfs Ext2State Ext2Super Ext2Mount Ext2Inodes
open Ext2Fresh (BlockSize)

/- ALIGN_UP, in the arithmetic of its arguments. -/
structure AlignUp where
  up : Nat → Nat → Nat
  ups : ∀ {x k : Nat}, x < 2^64 → k < 64 → up x (2^k) = (x + 2^k - 1) / 2^k * 2^k % 2^64

def AlignUp.standard : AlignUp := ⟨fun x a => (x + a - 1) / a * a % 2^64,fun _ _ => rfl⟩

section Descriptors
variable (st : SuperState) (group : Nat)

def usageBmpBlock : Nat := le32 st.descriptorTable (32 * group)
def unallocatedBlocks : Nat := le16 st.descriptorTable (32 * group + 12)

end Descriptors

section Words
variable (m : Masked) (range : Nat)

/- At most turns free bits of a word; a shift by a negative count is undefined. Every block
is a run of its own. -/
def fillWord : Nat → BitVec 64 → Nat → Outcome (BitVec 64 × Nat × List Nat)
  | 0,word,count => .ret (word,count,[])
  | _,word,0 => .ret (word,0,[])
  | turns+1,word,count+1 => match builtinFfs (~~~word) with
    | 0 => .fault .tableIndex
    | freeIdx+1 => do
      let (word,count,ret) ← fillWord turns (m.write word 1 freeIdx 1) count
      .ret (word,count,(add64 range freeIdx ||| 2^32)::ret)

/- The words from offset on. A word without a set bit gives one run of up to 64 blocks and
leaves the count as it is; shifting by all 64 bits is undefined. -/
def fillBitmap (baseBlock : Nat) : Nat → List (BitVec 64) → Nat → Outcome (List (BitVec 64) × List Nat)
  | _,[],_ => .ret ([],[])
  | offset,word::words,count =>
    let rangeStartBlock := add64 baseBlock (offset * 8)
    if word = 0 then
      let max := min count 64
      if max = 64 then .fault .tableIndex
      else do
        let (words,ret) ← fillBitmap baseBlock (offset + 1) words count
        .ret (~~~((~~~word >>> max) <<< max)::words,
          (rangeStartBlock ||| (max + (2^32 - 1)) % 2^32 * 2^32)::ret)
    else do
      let (word,count,first) ← fillWord m rangeStartBlock 64 word count
      let (words,ret) ← fillBitmap baseBlock (offset + 1) words count
      .ret (word::words,first ++ ret)

end Words

-- the first group from the inode's own on that has enough blocks left
def chooseGroup (st : SuperState) (inode count : Nat) : Option Nat :=
  ((List.range st.descriptorCount).find? fun i =>
    decide (count ≤ unallocatedBlocks st ((blockGroup st inode + i) % st.descriptorCount))).map
      fun i => (blockGroup st inode + i) % st.descriptorCount

def toInt (n : Nat) : Int := (BitVec.ofNat 32 n).toInt

def wordsOf (buffer : Mem) (n : Nat) : List (BitVec 64) := (List.range n).map fun i => .ofNat 64 (le64 buffer (8 * i))

def baseBlock (a : AlignUp) (st : SuperState) (group : Nat) : Nat :=
  a.up (add64 (st.inodeTableStart group) (mul64 (mul64 st.basic.blockSize 8) st.super.inodeSize.toNat))
    st.basic.blockSize / st.basic.blockSize

/- The entries written to ret, and block_bmp, which stays in memory. -/
def ext2AllocateBlocks (m : Masked) (a : AlignUp) (env : Env) (st : SuperState) (inode count : Nat) (world : World) :
    Outcome (Option (List Nat × List (BitVec 64)) × World) :=
  if inode = 0 ∨ count = 0 then .ret (none,world)
  else if st.super.inodesPerGroup = 0 then .fault .divisionByZero
  else
    let useGroup : Int := match chooseGroup st inode count with
      | none => -1
      | some group => toInt group
    if useGroup = -1 then .ret (none,world)
    else match alloc env world with
      | (none,world) => .ret (none,world)
      | (some _,world) => match alloc env world with
        | (none,world) => .ret (none,world)
        | (some blockBmp,world) =>
          if useGroup < 0 then .fault .tableIndex
          else if st.basic.blockSize = 0 then .fault .divisionByZero
          else do
            let group := useGroup.toNat
            let (_,blockBmp,world) := vfsRead env (vfsSeek world (mul64 (usageBmpBlock st group) st.basic.blockSize))
              blockBmp 0 st.basic.blockSize
            let (blockBmp,ret) ← fillBitmap m (baseBlock a st group) 0 (wordsOf blockBmp (st.basic.blockSize / 8)) count
            .ret (some (ret,blockBmp),world)

/-! The search of one word: its free bits are those of the low 32 that are clear. -/

section Search
variable {m : Masked} {range : Nat}

def single (range i : Nat) : Nat := add64 range i ||| 2^32

theorem fillWordZero (turns : Nat) (word : BitVec 64) : fillWord m range turns word 0 = .ret (word,0,[]) := by
  cases turns <;> rfl

theorem onesWritten (word : BitVec 64) {f : Nat} {rest : List Nat} (first : ones (~~~word) = f::rest) :
    ones (~~~m.write word 1 f 1) = rest ∧
      ∀ i, (m.write word 1 f 1).getLsbD i = (word.getLsbD i || decide (i = f)) := by
  have low : f < 32 := (onesMem.mp (first ▸ List.mem_cons_self)).1
  have bits (i : Nat) : (m.write word 1 f 1).getLsbD i = (word.getLsbD i || decide (i = f)) := by
    by_cases same : i = f
    · rw [same,writeBit m word 1 (by omega)]
      simp
    · rw [writeOther m word 1 same]
      simp [same]
  refine ⟨onesTail first fun i _ => ?_,bits⟩
  rw [BitVec.getLsbD_not,BitVec.getLsbD_not,bits]
  by_cases same : i = f <;> simp [same]

theorem fillWordTakes (m : Masked) (range : Nat) {count turns : Nat} {word : BitVec 64}
    (enough : count ≤ (ones (~~~word)).length) (time : count ≤ turns) : ∃ after, fillWord m range turns word count =
      .ret (after,0,((ones (~~~word)).take count).map (single range)) ∧
      ∀ i, after.getLsbD i = (word.getLsbD i || decide (i ∈ (ones (~~~word)).take count)) := by
  induction count generalizing turns word with
  | zero => exact ⟨word,fillWordZero turns word,fun i => by simp⟩
  | succ count ih =>
    obtain ⟨turns,rfl⟩ := Nat.exists_eq_add_of_le' (show 1 ≤ turns by omega)
    obtain ⟨f,rest,first⟩ := List.exists_cons_of_length_pos (show 0 < (ones (~~~word)).length by omega)
    obtain ⟨others,bits⟩ := onesWritten (m := m) word first
    have left : count ≤ (ones (~~~m.write word 1 f 1)).length := by
      rw [first,List.length_cons] at enough
      rw [others]
      omega
    obtain ⟨after,run,set⟩ := ih left (show count ≤ turns by omega)
    rw [others] at run set
    refine ⟨after,?_,fun i => ?_⟩
    · rw [fillWord,ffsSome first]
      simp only [run,Outcome.retBind,first]
      rfl
    · rw [set,bits,first,List.take_succ_cons,Bool.or_assoc]
      simp [List.mem_cons]

theorem fillWordFails {count turns : Nat} {word : BitVec 64} (short : (ones (~~~word)).length < count)
    (time : (ones (~~~word)).length < turns) : fillWord m range turns word count = .fault .tableIndex := by
  induction turns generalizing word count with
  | zero => exact absurd time (Nat.not_lt_zero _)
  | succ turns ih =>
    obtain ⟨count,rfl⟩ := Nat.exists_eq_add_of_le' (show 1 ≤ count by omega)
    cases first : ones (~~~word) with
    | nil =>
      rw [fillWord,ffsNone first]
    | cons f rest =>
      obtain ⟨others,_⟩ := onesWritten (m := m) word first
      rw [first,List.length_cons] at short time
      have later : fillWord m range turns (m.write word 1 f 1) count = .fault .tableIndex :=
        ih (by rw [others]; omega) (by rw [others]; omega)
      rw [fillWord,ffsSome first]
      simp only [later,Outcome.faultBind]

theorem onesLength (word : BitVec 64) : (ones word).length ≤ 32 :=
  (List.length_filter_le _ _).trans (Nat.le_of_eq List.length_range)

theorem fillWordRuns {count : Nat} {word after : BitVec 64} {left : Nat} {ret : List Nat}
    (run : fillWord m range 64 word count = .ret (after,left,ret)) :
    count ≤ (ones (~~~word)).length ∧ left = 0 ∧ ret.length = count := by
  have most := onesLength (~~~word)
  by_cases enough : count ≤ (ones (~~~word)).length
  · obtain ⟨_,other,_⟩ := fillWordTakes m range enough (show count ≤ 64 by omega)
    cases run.symm.trans other
    exact ⟨enough,rfl,by rw [List.length_map,List.length_take]; omega⟩
  · rw [fillWordFails (by omega) (by omega)] at run
    cases run

end Search

section Bitmap
variable {m : Masked} {base offset : Nat}

theorem bitmapDone {words : List (BitVec 64)} (nonzero : (0 : BitVec 64) ∉ words) :
    fillBitmap m base offset words 0 = .ret (words,[]) := by
  induction words generalizing offset with
  | nil => rfl
  | cons word words ih =>
    rw [List.mem_cons,not_or] at nonzero
    rw [fillBitmap]
    simp only [if_neg (Ne.symm nonzero.1),fillWordZero,ih nonzero.2,Outcome.retBind,List.append_nil]

theorem bitmapEntries {words after : List (BitVec 64)} {count : Nat} {ret : List Nat}
    (run : fillBitmap m base offset words count = .ret (after,ret)) :
    ret.length = words.count 0 + if words.all (fun w => decide (w = 0)) then 0 else count := by
  induction words generalizing offset count after ret with
  | nil =>
    rw [fillBitmap] at run
    cases run
    rfl
  | cons word words ih =>
    rw [fillBitmap] at run
    by_cases zero : word = 0
    · subst zero
      by_cases whole : min count 64 = 64
      · simp only [if_pos,whole] at run
        cases run
      · simp only [if_true,if_neg whole] at run
        obtain ⟨⟨rest,others⟩,later,run⟩ := Outcome.bindRet run
        cases run
        rw [List.length_cons,ih later,List.count_cons_self,List.all_cons,decide_eq_true rfl,Bool.true_and]
        omega
    · simp only [if_neg zero] at run
      obtain ⟨⟨filled,left,first⟩,searched,run⟩ := Outcome.bindRet run
      obtain ⟨⟨rest,others⟩,later,run⟩ := Outcome.bindRet run
      cases run
      obtain ⟨_,rfl,same⟩ := fillWordRuns searched
      rw [List.length_append,same,ih later,List.count_cons_of_ne zero,List.all_cons,decide_eq_false zero,Bool.false_and,
        ite_self]
      simp only [Bool.false_eq_true,if_false]
      omega

theorem zeroEntries {words after : List (BitVec 64)} {count : Nat} {ret : List Nat}
    (run : fillBitmap m base offset words count = .ret (after,ret)) (zero : (0 : BitVec 64) ∈ words)
    (long : 64 ≤ words.length) : count < ret.length := by
  rw [bitmapEntries run]
  by_cases all : words.all (fun w => decide (w = 0)) = true
  · have every : ∀ w ∈ words, w = 0 := fun w mem => of_decide_eq_true (List.all_eq_true.mp all w mem)
    have whole : words.count 0 = words.length := List.count_eq_length.mpr fun w mem => (every w mem).symm
    have few : count < 64 := by
      by_contra many
      obtain ⟨word,rest,rfl⟩ := List.exists_cons_of_length_pos (show 0 < words.length by omega)
      rw [every word List.mem_cons_self,fillBitmap] at run
      simp only [if_true,if_pos (show min count 64 = 64 by omega)] at run
      cases run
    rw [if_pos all,whole]
    omega
  · have one := List.count_pos_iff.mpr zero
    rw [if_neg all]
    omega

theorem bitmapFirst {word : BitVec 64} {words : List (BitVec 64)} (nonzero : (0 : BitVec 64) ∉ word::words) (count : Nat) :
    fillBitmap m base offset (word::words) count =
      (fillWord m (add64 base (offset * 8)) 64 word count).bind fun (word,_,ret) => .ret (word::words,ret) := by
  have some : word ≠ 0 := fun same => nonzero (same ▸ List.mem_cons_self)
  have others : (0 : BitVec 64) ∉ words := fun mem => nonzero (List.mem_cons_of_mem _ mem)
  rw [fillBitmap]
  simp only [if_neg some]
  cases searched : fillWord m (add64 base (offset * 8)) 64 word count with
  | fault e => rfl
  | running => rfl
  | ret r =>
    obtain ⟨after,left,ret⟩ := r
    obtain ⟨_,rfl,_⟩ := fillWordRuns searched
    simp only [Outcome.retBind,bitmapDone others,List.append_nil]
    rfl

end Bitmap

def bit (words : List (BitVec 64)) (i : Nat) : Bool := (words.getD (i / 64) 0).getLsbD (i % 64)

def bitmapOf (st : SuperState) (image : Mem) (group : Nat) : List (BitVec 64) :=
  wordsOf (view image (mul64 (usageBmpBlock st group) st.basic.blockSize)) (st.basic.blockSize / 8)

section Specification
variable (lengthOf : Nat → Nat) (st : SuperState)

def denoted (ret : List Nat) : List Nat :=
  ret.flatMap fun entry => (List.range (lengthOf (entry / 2^32))).map (entry % 2^32 + ·)

def firstBlock (group : Nat) : Nat := st.super.superblock.toNat + group * st.super.blocksPerGroup.toNat
def groupBlocks (group : Nat) : Nat := min st.super.blocksPerGroup.toNat (st.super.totalBlocks.toNat - firstBlock st group)
def bitOf (block : Nat) : Nat := (block - st.super.superblock.toNat) % st.super.blocksPerGroup.toNat

structure OfGroup (group block : Nat) : Prop where
  from_ : st.super.superblock.toNat ≤ block
  below : block < st.super.totalBlocks.toNat
  group : (block - st.super.superblock.toNat) / st.super.blocksPerGroup.toNat = group

structure Allocated (group count : Nat) (before after : List (BitVec 64)) (ret : List Nat) : Prop where
  written : ret.length ≤ count
  distinct : (denoted lengthOf ret).Nodup
  whole : (denoted lengthOf ret).length = count
  free : ∀ block ∈ denoted lengthOf ret, OfGroup st group block ∧ bit before (bitOf st block) = false
  set : ∀ i, bit after i = true ↔ bit before i = true ∨ ∃ block ∈ denoted lengthOf ret, bitOf st block = i

structure Behaves (m : Masked) (a : AlignUp) (env : Env) (inode count : Nat) (world : World) : Prop where
  refuses : (∀ group < st.descriptorCount, unallocatedBlocks st group < count) →
    ∃ after, ext2AllocateBlocks m a env st inode count world = .ret (none,after)
  allocates : ∀ group, chooseGroup st inode count = some group → ∃ ret bitmap after,
    ext2AllocateBlocks m a env st inode count world = .ret (some (ret,bitmap),after) ∧
      Allocated lengthOf st group count (bitmapOf st world.disk group) bitmap ret

def freeBelow (word : BitVec 64) (n : Nat) : Nat := ((List.range n).filter (~~~word).getLsbD).length

/- The group can be indexed by an int, the code's first block is its own, 1 stands for one
block, every word of the bitmap has a set bit, and the blocks are found in the low half of
the first. -/
structure Fits (a : AlignUp) (count : Nat) (image : Mem) (group : Nat) : Prop where
  index : group < 2^31
  base : baseBlock a st group = firstBlock st group
  unit : lengthOf 1 = 1
  used : (0 : BitVec 64) ∉ bitmapOf st image group
  enough : count ≤ freeBelow ((bitmapOf st image group).headD 0) (min 32 (groupBlocks st group))

end Specification

theorem shiftFixed {T : List Nat} {a b : Nat} (nonempty : T ≠ []) (closed : ∀ f ∈ T, ∃ i ∈ T, a + i = b + f) : a = b := by
  have some : T.toFinset.Nonempty := (List.toFinset_nonempty_iff T).mpr nonempty
  obtain ⟨last,here,greatest⟩ := T.toFinset.exists_max_image id some
  obtain ⟨first,there,least⟩ := T.toFinset.exists_min_image id some
  obtain ⟨i,later,above⟩ := closed last (List.mem_toFinset.mp here)
  obtain ⟨j,earlier,below⟩ := closed first (List.mem_toFinset.mp there)
  have high : i ≤ last := greatest i (List.mem_toFinset.mpr later)
  have low : first ≤ j := least j (List.mem_toFinset.mpr earlier)
  omega

section Groups
variable {st : SuperState} {group : Nat}

theorem bitOfFirst {i : Nat} (inside : i < st.super.blocksPerGroup.toNat) : bitOf st (firstBlock st group + i) = i := by
  rw [bitOf,firstBlock,Nat.add_assoc,Nat.add_sub_cancel_left,Nat.mul_comm,Nat.mul_add_mod,Nat.mod_eq_of_lt inside]

theorem groupFirst {i : Nat} (inside : i < groupBlocks st group) : OfGroup st group (firstBlock st group + i) := by
  unfold groupBlocks at inside
  refine ⟨by unfold firstBlock; omega,by omega,?_⟩
  rw [firstBlock,Nat.add_assoc,Nat.add_sub_cancel_left,Nat.mul_comm,Nat.mul_add_div (by omega),
    Nat.div_eq_of_lt (by omega),Nat.add_zero]

theorem groupBit (perBlock : 0 < st.super.blocksPerGroup.toNat) {block : Nat} (inside : OfGroup st group block) :
    firstBlock st group + bitOf st block = block ∧ bitOf st block < groupBlocks st group := by
  have parts := Nat.div_add_mod (block - st.super.superblock.toNat) st.super.blocksPerGroup.toNat
  have low := Nat.mod_lt (block - st.super.superblock.toNat) perBlock
  have from_ := inside.from_
  have below := inside.below
  rw [inside.group,Nat.mul_comm] at parts
  unfold groupBlocks firstBlock bitOf
  omega

end Groups

section Runs
variable {lengthOf : Nat → Nat} {st : SuperState} {group base : Nat} {T : List Nat}

theorem singleParts {f : Nat} (small : base + f < 2^32) : single base f / 2^32 = 1 ∧ single base f % 2^32 = base + f := by
  have whole : single base f = 2^32 * 1 + (base + f) := by
    rw [Nat.two_pow_add_eq_or_of_lt small 1,single,add64Eq (by omega),Nat.or_comm,Nat.mul_one]
  omega

theorem denotedSingles (small : ∀ f ∈ T, base + f < 2^32) : denoted lengthOf (T.map (single base)) =
    T.flatMap fun f => (List.range (lengthOf 1)).map (base + f + ·) := by
  rw [denoted,List.flatMap_map]
  refine List.flatMap_congr fun f mem => ?_
  obtain ⟨length,start⟩ := singleParts (small f mem)
  rw [length,start]

theorem denotedUnits (lengthOf : Nat → Nat) (small : ∀ f ∈ T, base + f < 2^32) (unit : lengthOf 1 = 1) :
    denoted lengthOf (T.map (single base)) = T.map (base + ·) := by
  rw [denotedSingles small,unit,List.map_eq_flatMap]
  rfl

theorem allocatedIff (lengthOf : Nat → Nat) (group : Nat) (perBlock : 0 < st.super.blocksPerGroup.toNat)
    {before after : List (BitVec 64)} (nonempty : T ≠ []) (distinct : T.Nodup)
    (low : ∀ f ∈ T, f < 32) (clear : ∀ f ∈ T, bit before f = false) (small : base + 32 ≤ 2^32)
    (bits : ∀ i, bit after i = true ↔ bit before i = true ∨ i ∈ T) :
    Allocated lengthOf st group T.length before after (T.map (single base)) ↔
      base = firstBlock st group ∧ lengthOf 1 = 1 ∧ ∀ f ∈ T, f < groupBlocks st group := by
  have below : ∀ f ∈ T, base + f < 2^32 := fun f mem => by
    have := low f mem
    omega
  constructor
  · intro allocated
    have unit : lengthOf 1 = 1 := by
      have total := allocated.whole
      rw [denotedSingles below] at total
      have pos := List.length_pos_iff.mpr nonempty
      simp only [List.length_flatMap,List.length_map,List.length_range,List.map_const',List.sum_replicate_nat] at total
      exact Nat.eq_of_mul_eq_mul_left pos (total.trans (Nat.mul_one _).symm)
    have blocks := denotedUnits lengthOf below unit
    have here (f : Nat) (mem : f ∈ T) : base + f ∈ denoted lengthOf (T.map (single base)) :=
      blocks ▸ List.mem_map_of_mem mem
    have same : firstBlock st group = base := by
      refine shiftFixed nonempty fun f mem => ?_
      obtain ⟨inside,free⟩ := allocated.free _ (here f mem)
      refine ⟨bitOf st (base + f),?_,(groupBit perBlock inside).1⟩
      have taken := (allocated.set _).mpr (.inr ⟨_,here f mem,rfl⟩)
      refine ((bits _).mp taken).resolve_left ?_
      rw [free]
      exact Bool.false_ne_true
    refine ⟨same.symm,unit,fun f mem => ?_⟩
    obtain ⟨at_,inside⟩ := groupBit perBlock (allocated.free _ (here f mem)).1
    omega
  · rintro ⟨rfl,unit,inside⟩
    have blocks := denotedUnits lengthOf below unit
    have index {f : Nat} (mem : f ∈ T) : bitOf st (firstBlock st group + f) = f := by
      have := inside f mem
      unfold groupBlocks at this
      exact bitOfFirst (by omega)
    constructor
    · rw [List.length_map]
    · rw [blocks]
      exact distinct.map fun _ _ => Nat.add_left_cancel
    · rw [blocks,List.length_map]
    · rw [blocks]
      intro block mem
      obtain ⟨f,here,rfl⟩ := List.mem_map.mp mem
      rw [index here]
      exact ⟨groupFirst (inside f here),clear f here⟩
    · intro i
      rw [bits,blocks]
      refine or_congr_right ⟨fun mem => ⟨_,List.mem_map_of_mem mem,index mem⟩,?_⟩
      rintro ⟨block,mem,rfl⟩
      obtain ⟨f,here,rfl⟩ := List.mem_map.mp mem
      rwa [index here]

end Runs

theorem bitCons (word : BitVec 64) (words : List (BitVec 64)) (i : Nat) :
    bit (word::words) i = if i < 64 then word.getLsbD i else bit words (i - 64) := by
  unfold bit
  by_cases low : i < 64
  · rw [if_pos low,Nat.div_eq_of_lt low,Nat.mod_eq_of_lt low]
    rfl
  · rw [if_neg low,show i / 64 = (i - 64) / 64 + 1 by omega,show (i - 64) % 64 = i % 64 by omega]
    rfl

theorem takeBelow (p : Nat → Bool) {n k count : Nat} (enough : count ≤ ((List.range k).filter p).length) :
    (∀ f ∈ ((List.range k).filter p).take count, f < n) ↔ count ≤ ((List.range (min k n)).filter p).length := by
  obtain ⟨d,whole⟩ := Nat.exists_eq_add_of_le (Nat.min_le_left k n)
  have split : (List.range k).filter p =
      (List.range (min k n)).filter p ++ ((List.range d).map (min k n + ·)).filter p := by
    rw [← List.filter_append,← List.range_add,← whole]
  rw [split]
  constructor
  · intro below
    by_contra more
    have next : ((List.range (min k n)).filter p).length < count := Nat.lt_of_not_le more
    rw [split,List.length_append] at enough
    obtain ⟨f,rest,first⟩ := List.exists_cons_of_length_pos
      (show 0 < (((List.range d).map (min k n + ·)).filter p).length by omega)
    have mem : f ∈ ((List.range d).map (min k n + ·)).filter p := first ▸ List.mem_cons_self
    obtain ⟨i,inside,rfl⟩ := List.mem_map.mp (List.mem_filter.mp mem).1
    have small := List.mem_range.mp inside
    have low := below (min k n + i) (by
      rw [List.take_append,List.mem_append,first,List.take_cons (by omega)]
      exact .inr List.mem_cons_self)
    omega
  · intro few f mem
    rw [List.take_append_of_le_length few] at mem
    have low := List.mem_range.mp (List.mem_filter.mp (List.mem_of_mem_take mem)).1
    omega

theorem chooseSome {st : SuperState} {inode count group : Nat} (chosen : chooseGroup st inode count = some group) :
    group < st.descriptorCount ∧ count ≤ unallocatedBlocks st group := by
  obtain ⟨i,found,rfl⟩ := Option.map_eq_some_iff.mp chosen
  have pos := Nat.zero_lt_of_lt (List.mem_range.mp (List.mem_of_find?_eq_some found))
  have enough := List.find?_some found
  exact ⟨Nat.mod_lt _ pos,of_decide_eq_true enough⟩

theorem chooseNone {st : SuperState} {inode count : Nat} : chooseGroup st inode count = none ↔
    ∀ group < st.descriptorCount, unallocatedBlocks st group < count := by
  constructor
  · intro none group inside
    rw [chooseGroup,Option.map_eq_none_iff,List.find?_eq_none] at none
    let d := st.descriptorCount
    let first := blockGroup st inode
    have at_ : (first + (group + (d - first % d)) % d) % d = group := by
      have low := Nat.mod_lt first (show 0 < d from Nat.zero_lt_of_lt inside)
      rw [Nat.add_mod_mod,← Nat.mod_add_mod,show first % d + (group + (d - first % d)) = group + d by omega,
        Nat.add_mod_right,Nat.mod_eq_of_lt inside]
    have short := none _ (List.mem_range.mpr (Nat.mod_lt (group + (d - first % d)) (Nat.zero_lt_of_lt inside)))
    rw [decide_eq_true_eq,Nat.not_le] at short
    change unallocatedBlocks st ((first + (group + (d - first % d)) % d) % d) < count at short
    rwa [at_] at short
  · intro short
    cases chosen : chooseGroup st inode count with
    | none => rfl
    | some group =>
      obtain ⟨inside,enough⟩ := chooseSome chosen
      exact absurd enough (Nat.not_le_of_lt (short group inside))

theorem toIntHigh {n : Nat} (high : 2^31 ≤ n) (low : n < 2^32) : toInt n < 0 := by
  rw [toInt,BitVec.toInt_eq_toNat_cond,BitVec.toNat_ofNat,Nat.mod_eq_of_lt low,if_neg (by omega)]
  omega

theorem descriptorsLt {st : SuperState} (loaded : Loaded st) : st.descriptorCount < 2^32 := by
  have low := st.super.totalInodes.toNat_lt
  rw [loaded.count,descriptorGroups]
  refine Nat.lt_of_le_of_lt (Nat.min_le_right _ _) ?_
  rw [wrappedGroups]
  split
  · have pos : 0 < st.super.inodesPerGroup.toNat :=
      Nat.pos_of_ne_zero fun zero => loaded.perInode (UInt32.toNat_inj.mp zero)
    refine Nat.lt_of_le_of_lt ?_ low
    rw [ceilDiv_le_iff_le_mul pos]
    exact Nat.le_mul_of_pos_left _ pos
  · exact Nat.two_pow_pos 32

theorem wordsCongr {a b : Mem} {n : Nat} (same : ∀ i < 8 * n, a i = b i) : wordsOf a n = wordsOf b n := by
  refine List.map_congr_left fun i mem => ?_
  have inside := List.mem_range.mp mem
  have half (pos : Nat) (low : pos + 4 ≤ 8 * n) : le32 a pos = le32 b pos :=
    le32Congr fun j short => same (pos + j) (by omega)
  rw [le64,le64,half (8 * i) (by omega),half (8 * i + 4) (by omega)]

section Chosen
variable {m : Masked} {a : AlignUp} {env : Env} {st : SuperState} {inode count group : Nat}

theorem allocateRuns (full : env.Full) (allocates : env.Allocates) (perInode : st.super.inodesPerGroup ≠ 0)
    (sized : st.basic.blockSize ≠ 0) (named : inode ≠ 0) (pos : count ≠ 0) (chosen : chooseGroup st inode count = some group)
    (low : group < 2^31) (world : World) : ∃ after, ext2AllocateBlocks m a env st inode count world =
      (fillBitmap m (baseBlock a st group) 0 (bitmapOf st world.disk group) count).bind fun (bitmap,ret) =>
        .ret (some (ret,bitmap),after) := by
  obtain ⟨first,fresh⟩ := Option.isSome_iff_exists.mp (allocates world.allocs)
  obtain ⟨buffer,again⟩ := Option.isSome_iff_exists.mp (allocates (world.allocs + 1))
  have index : toInt group = group := intIff.mpr low
  have words : wordsOf (vfsRead env (vfsSeek (alloc env (alloc env world).2).2
      (mul64 (usageBmpBlock st group) st.basic.blockSize)) buffer 0 st.basic.blockSize).2.1 (st.basic.blockSize / 8) =
      bitmapOf st world.disk group := by
    refine wordsCongr fun i inside => ?_
    rw [(readFull full _ _ _ _).2,patchInside (Nat.zero_le i) (by omega)]
    rfl
  simp only [alloc] at words
  simp only [ext2AllocateBlocks,named,pos,or_self,if_false,perInode,chosen,index,alloc,fresh,again,sized,
    show ((group : Int) = -1) = False by simp,show ((group : Int) < 0) = False by simp,Int.toNat_natCast,words]
  exact ⟨_,rfl⟩

theorem allocateHigh (named : inode ≠ 0) (pos : count ≠ 0) (chosen : chooseGroup st inode count = some group)
    (high : 2^31 ≤ group) (low : group < 2^32) (world : World) {r : List Nat × List (BitVec 64)} {after : World} :
    ext2AllocateBlocks m a env st inode count world ≠ .ret (some r,after) := by
  have negative := toIntHigh high low
  intro run
  simp only [ext2AllocateBlocks,named,pos,or_self,if_false,chosen,negative,if_true] at run
  repeat' split at run
  all_goals cases run

theorem allocateDisk {world after : World} {r : Option (List Nat × List (BitVec 64))}
    (run : ext2AllocateBlocks m a env st inode count world = .ret (r,after)) : after.disk = world.disk := by
  unfold ext2AllocateBlocks at run
  by_cases improper : inode = 0 ∨ count = 0
  · rw [if_pos improper] at run
    cases run
    rfl
  by_cases divided : st.super.inodesPerGroup = 0
  · rw [if_neg improper,if_pos divided] at run
    cases run
  rw [if_neg improper,if_neg divided] at run
  generalize (match chooseGroup st inode count with | none => (-1 : Int) | some group => toInt group) = useGroup at run
  by_cases full : useGroup = -1
  · simp only [if_pos full] at run
    cases run
    rfl
  simp only [if_neg full] at run
  cases first : env.fresh world.allocs with
  | none =>
    simp only [alloc,first] at run
    cases run
    rfl
  | some ret =>
    cases second : env.fresh (world.allocs + 1) with
    | none =>
      simp only [alloc,first,second] at run
      cases run
      rfl
    | some buffer =>
      simp only [alloc,first,second] at run
      split at run
      · cases run
      split at run
      · cases run
      obtain ⟨_,_,run⟩ := Outcome.bindRet run
      cases run
      rfl

end Chosen

theorem baseSmall (a : AlignUp) {st : SuperState} (block : BlockSize st.basic.blockSize) (group : Nat) :
    baseBlock a st group + 32 ≤ 2^32 := by
  obtain ⟨large,_,_⟩ := block.bounds
  obtain ⟨k,low,size⟩ := block
  have power : st.basic.blockSize = 2^(10 + k) := by rw [size,Nat.pow_add]
  have start := le32Lt st.descriptorTable (32 * group + 8)
  have bytes := st.super.inodeSize.toNat_lt
  have sum : add64 (st.inodeTableStart group) (mul64 (mul64 st.basic.blockSize 8) st.super.inodeSize.toNat) ≤
      st.inodeTableStart group + st.basic.blockSize * (8 * st.super.inodeSize.toNat) := by
    refine (Nat.mod_le _ _).trans (Nat.add_le_add_left ?_ _)
    rw [← Nat.mul_assoc]
    exact (Nat.mod_le _ _).trans (Nat.mul_le_mul_right _ (Nat.mod_le _ _))
  generalize total : add64 (st.inodeTableStart group) (mul64 (mul64 st.basic.blockSize 8) st.super.inodeSize.toNat) = x at sum
  have below : x < 2^64 := total ▸ Nat.mod_lt _ (by decide)
  have up := a.ups below (show 10 + k < 64 by omega)
  rw [← power] at up
  have rounded : baseBlock a st group ≤ (x + st.basic.blockSize - 1) / st.basic.blockSize := by
    rw [baseBlock,total,up]
    refine (Nat.div_le_div_right (Nat.mod_le _ _)).trans ?_
    rw [Nat.mul_div_cancel _ (by omega)]
  have most : (x + st.basic.blockSize - 1) / st.basic.blockSize ≤ 8 * st.super.inodeSize.toNat + (2^32 / 1024 + 1) := by
    refine Nat.div_le_of_le_mul ?_
    have far : 1024 * (2^32 / 1024) ≤ st.basic.blockSize * (2^32 / 1024) := Nat.mul_le_mul_right _ large
    rw [Nat.mul_add,Nat.mul_add,Nat.mul_one]
    change le32 _ _ < _ at start
    have begins : st.inodeTableStart group < 2^32 := start
    omega
  omega

section Bitmaps
variable {m : Masked} {lengthOf : Nat → Nat} {st : SuperState} {base group count : Nat}

theorem takenLow {word : BitVec 64} {f : Nat} (mem : f ∈ (ones (~~~word)).take count) : f < 32 :=
  (onesMem.mp (List.mem_of_mem_take mem)).1

theorem takenClear (words : List (BitVec 64)) {word : BitVec 64} {f : Nat} (mem : f ∈ (ones (~~~word)).take count) :
    bit (word::words) f = false := by
  have low := takenLow mem
  have clear := (onesMem.mp (List.mem_of_mem_take mem)).2
  rw [BitVec.getLsbD_not,Bool.and_eq_true] at clear
  rw [bitCons,if_pos (by omega)]
  simpa using clear.2

theorem takenSet (words : List (BitVec 64)) {word after : BitVec 64}
    (bits : ∀ i, after.getLsbD i = (word.getLsbD i || decide (i ∈ (ones (~~~word)).take count))) (i : Nat) :
    bit (after::words) i = true ↔ bit (word::words) i = true ∨ i ∈ (ones (~~~word)).take count := by
  rw [bitCons,bitCons]
  by_cases inside : i < 64
  · rw [if_pos inside,if_pos inside,bits,Bool.or_eq_true,decide_eq_true_eq]
  · rw [if_neg inside,if_neg inside]
    exact ⟨.inl,fun either => either.resolve_right fun mem => inside (Nat.lt_trans (takenLow mem) (by decide))⟩

theorem firstIff (perBlock : 0 < st.super.blocksPerGroup.toNat) {word : BitVec 64} {words : List (BitVec 64)}
    (used : (0 : BitVec 64) ∉ word::words) (small : base + 32 ≤ 2^32) (pos : count ≠ 0) :
    (∃ bitmap ret, fillBitmap m base 0 (word::words) count = .ret (bitmap,ret) ∧
        Allocated lengthOf st group count (word::words) bitmap ret) ↔
      base = firstBlock st group ∧ lengthOf 1 = 1 ∧ count ≤ freeBelow word (min 32 (groupBlocks st group)) := by
  have start : add64 base (0 * 8) = base := by
    rw [Nat.zero_mul]
    exact add64Eq (by omega)
  have most := onesLength (~~~word)
  by_cases enough : count ≤ (ones (~~~word)).length
  · obtain ⟨after,run,bits⟩ := fillWordTakes m base enough (show count ≤ 64 by omega)
    have whole : fillBitmap m base 0 (word::words) count =
        .ret (after::words,((ones (~~~word)).take count).map (single base)) := by
      rw [bitmapFirst used,start,run]
      rfl
    have length : ((ones (~~~word)).take count).length = count := by
      rw [List.length_take]
      omega
    have shape := allocatedIff lengthOf group perBlock (List.ne_nil_of_length_pos (by omega))
      ((onesNodup _).sublist (List.take_sublist _ _)) (fun f => takenLow) (fun f => takenClear words) small
      (takenSet words bits)
    rw [length] at shape
    rw [freeBelow,← takeBelow _ enough,← show ones (~~~word) = (List.range 32).filter (~~~word).getLsbD from rfl,← shape]
    constructor
    · rintro ⟨bitmap,ret,other,allocated⟩
      cases whole.symm.trans other
      exact allocated
    · exact fun allocated => ⟨_,_,whole,allocated⟩
  · refine iff_of_false ?_ ?_
    · rintro ⟨bitmap,ret,run,_⟩
      rw [bitmapFirst used,start,fillWordFails (by omega) (by omega)] at run
      cases run
    · rintro ⟨_,_,below⟩
      have fewer : freeBelow word (min 32 (groupBlocks st group)) ≤ (ones (~~~word)).length :=
        ((List.range_sublist.mpr (Nat.min_le_left _ _)).filter _).length_le
      omega

end Bitmaps

section Allocation
variable {m : Masked} {a : AlignUp} {env : Env} {lengthOf : Nat → Nat} {st : SuperState} {inode count group : Nat}

theorem chosenIff (lengthOf : Nat → Nat) (full : env.Full) (allocates : env.Allocates) (loaded : Loaded st)
    (block : BlockSize st.basic.blockSize) (pos : count ≠ 0) (chosen : chooseGroup st inode count = some group)
    (world : World) :
    (∃ ret bitmap after, ext2AllocateBlocks m a env st inode count world = .ret (some (ret,bitmap),after) ∧
        Allocated lengthOf st group count (bitmapOf st world.disk group) bitmap ret) ↔
      inode ≠ 0 ∧ Fits lengthOf st a count world.disk group := by
  have large := block.bounds.1
  have perBlock : 0 < st.super.blocksPerGroup.toNat :=
    Nat.pos_of_ne_zero fun zero => loaded.perBlock (UInt32.toNat_inj.mp zero)
  by_cases named : inode = 0
  · refine iff_of_false ?_ fun both => both.1 named
    rintro ⟨ret,bitmap,after,run,_⟩
    rw [ext2AllocateBlocks,if_pos (.inl named)] at run
    cases run
  by_cases high : 2^31 ≤ group
  · have low := (chooseSome chosen).1.trans (descriptorsLt loaded)
    refine iff_of_false ?_ fun both => absurd both.2.index (Nat.not_lt_of_le high)
    rintro ⟨ret,bitmap,after,run,_⟩
    exact allocateHigh named pos chosen high low world run
  have index : group < 2^31 := Nat.lt_of_not_le high
  have long : 64 ≤ (bitmapOf st world.disk group).length := by
    rw [bitmapOf,wordsOf,List.length_map,List.length_range]
    omega
  obtain ⟨last,runs⟩ := allocateRuns (m := m) (a := a) full allocates loaded.perInode (by omega) named pos chosen index world
  have returns : (∃ ret bitmap after, ext2AllocateBlocks m a env st inode count world = .ret (some (ret,bitmap),after) ∧
        Allocated lengthOf st group count (bitmapOf st world.disk group) bitmap ret) ↔
      ∃ bitmap ret, fillBitmap m (baseBlock a st group) 0 (bitmapOf st world.disk group) count = .ret (bitmap,ret) ∧
        Allocated lengthOf st group count (bitmapOf st world.disk group) bitmap ret := by
    constructor
    · rintro ⟨ret,bitmap,after,run,allocated⟩
      rw [runs] at run
      obtain ⟨⟨filled,entries⟩,search,run⟩ := Outcome.bindRet run
      cases run
      exact ⟨_,_,search,allocated⟩
    · rintro ⟨bitmap,ret,search,allocated⟩
      exact ⟨ret,bitmap,last,by rw [runs,search]; rfl,allocated⟩
  rw [returns]
  obtain ⟨word,words,first⟩ := List.exists_cons_of_length_pos (show 0 < (bitmapOf st world.disk group).length by omega)
  by_cases zero : (0 : BitVec 64) ∈ bitmapOf st world.disk group
  · refine iff_of_false ?_ fun both => both.2.used zero
    rintro ⟨bitmap,ret,search,allocated⟩
    exact absurd allocated.written (Nat.not_le_of_lt (zeroEntries search zero long))
  · have used := zero
    rw [first] at used
    rw [first,firstIff perBlock used (baseSmall a block group) pos]
    constructor
    · rintro ⟨base,unit,enough⟩
      exact ⟨named,index,base,unit,zero,by rwa [first]⟩
    · rintro ⟨_,fits⟩
      have enough := fits.enough
      rw [first] at enough
      exact ⟨fits.base,fits.unit,enough⟩

end Allocation

/-- An allocation is right exactly when no group has enough blocks, or the inode is not 0 and
the group that is chosen fits: its first block is the one the code computes, and enough
blocks are free in the low half of the first word of a bitmap without an empty word. -/
theorem allocatesIff {env : Env} {st : SuperState} (m : Masked) (a : AlignUp) (full : env.Full) (allocates : env.Allocates)
    (loaded : Loaded st) (block : BlockSize st.basic.blockSize) (lengthOf : Nat → Nat) (inode count : UInt32)
    (pos : count ≠ 0) (world : World) : Behaves lengthOf st m a env inode.toNat count.toNat world ↔
      (∀ group < st.descriptorCount, unallocatedBlocks st group < count.toNat) ∨ (inode.toNat ≠ 0 ∧ ∃ group,
        chooseGroup st inode.toNat count.toNat = some group ∧ Fits lengthOf st a count.toNat world.disk group) := by
  have some : count.toNat ≠ 0 := fun zero => pos (UInt32.toNat_inj.mp zero)
  cases chosen : chooseGroup st inode.toNat count.toNat with
  | none =>
    have short := chooseNone.mp chosen
    refine iff_of_true ⟨fun _ => ?_,fun group other => ?_⟩ (.inl short)
    · by_cases zero : inode.toNat = 0
      · exact ⟨world,if_pos (.inl zero)⟩
      · simp only [ext2AllocateBlocks,zero,some,or_self,if_false,loaded.perInode,chosen,if_true]
        exact ⟨world,rfl⟩
    · cases chosen.symm.trans other
  | some group =>
    have room := chooseSome chosen
    have whole := chosenIff (m := m) (a := a) lengthOf full allocates loaded block some chosen world
    constructor
    · intro behaves
      obtain ⟨named,fits⟩ := whole.mp (behaves.allocates group chosen)
      exact .inr ⟨named,group,rfl,fits⟩
    · rintro (short | ⟨named,other,same,fits⟩)
      · exact absurd (short group room.1) (Nat.not_lt_of_le room.2)
      · cases same
        refine ⟨fun short => absurd (short group room.1) (Nat.not_lt_of_le room.2),fun chosenToo again => ?_⟩
        cases chosen.symm.trans again
        exact whole.mpr ⟨named,fits⟩

/-- On the partition no allocation is right, as the bitmap is never written back: a block that
is given out is free there still. -/
theorem allocatedUnmarked {m : Masked} {a : AlignUp} {env : Env} {st : SuperState} {inode count : Nat} {world after : World}
    {ret : List Nat} {bitmap : List (BitVec 64)} (pos : count ≠ 0)
    (run : ext2AllocateBlocks m a env st inode count world = .ret (some (ret,bitmap),after)) (lengthOf : Nat → Nat)
    (group : Nat) : ¬ Allocated lengthOf st group count (bitmapOf st world.disk group) (bitmapOf st after.disk group) ret := by
  intro allocated
  rw [allocateDisk run] at allocated
  obtain ⟨block,mem⟩ := List.exists_mem_of_length_pos (Nat.pos_of_ne_zero (allocated.whole ▸ pos))
  have free := (allocated.free block mem).2
  have taken := (allocated.set (bitOf st block)).mpr (.inr ⟨block,mem,rfl⟩)
  exact Bool.false_ne_true (free.symm.trans taken)

def tableBytes : List (Nat × UInt8) := [(32,4),(40,5),(44,10)]

def pairState : SuperState where
  partitionPath := ""
  descriptorTable := fun a => (tableBytes.lookup a).getD 0
  descriptorCount := 2
  basic := ⟨none,0,1024,2⟩
  super := { SuperBlock.ofBytes zeros with
    totalInodes := 32, totalBlocks := 2049, superblock := 1, blocksPerGroup := 1024, inodesPerGroup := 16, inodeSize := 128 }

def usedDisk : Mem := fun a => if a = 4096 then 0x0F else 0xFF

theorem pairLoaded : Loaded pairState := ⟨by decide,by decide,by decide⟩

theorem pairBlock : BlockSize pairState.basic.blockSize := ⟨0,by decide,rfl⟩

theorem pairChosen : chooseGroup pairState 17 3 = some 1 := by decide

theorem pairAllocates : Behaves id pairState .standard .standard smallEnv 17 3 ⟨usedDisk,0,0,0⟩ := by
  have fits : Fits id pairState .standard 3 usedDisk 1 := ⟨by decide,by decide,rfl,by decide +kernel,by decide +kernel⟩
  exact (allocatesIff .standard .standard (fun _ _ _ => le_rfl) (fun _ => rfl) pairLoaded pairBlock id 17 3 (by decide)
    ⟨usedDisk,0,0,0⟩).mpr (.inr ⟨by decide,1,pairChosen,fits⟩)

theorem emptyOverruns : ¬ ∃ lengthOf : Nat → Nat, ∀ (m : Masked) (a : AlignUp) (env : Env) (st : SuperState) (world : World)
    (inode count : UInt32), env.Full → env.Allocates → Loaded st → BlockSize st.basic.blockSize → count ≠ 0 →
      Behaves lengthOf st m a env inode.toNat count.toNat world := by
  rintro ⟨lengthOf,all⟩
  have full : smallEnv.Full := fun _ _ _ => le_rfl
  have allocates : smallEnv.Allocates := fun _ => rfl
  have behaves := all .standard .standard smallEnv pairState ⟨zeros,0,0,0⟩ 17 3 full allocates pairLoaded pairBlock
    (by decide)
  obtain ⟨_,fits⟩ := (chosenIff lengthOf full allocates pairLoaded pairBlock (by decide) pairChosen ⟨zeros,0,0,0⟩).mp
    (behaves.allocates 1 pairChosen)
  exact fits.used (by decide +kernel)

end Kdrivers.Ext2Allocate
