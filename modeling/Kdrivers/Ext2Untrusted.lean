import Kdrivers.Ext2Listing

/-! Directories that nobody checked: which bytes a listing takes for records, and where it
comes to an end. -/
namespace Kdrivers.Ext2Untrusted
open Bytes CString Vfs IndexTree Ext2State Ext2Traverse Ext2Resolve Ext2Layout Ext2Transfer Ext2Fresh Ext2Directory
open Ext2Listing

section Runs
variable {σ : Type} (env : Env) (dir : BasicState) (callback : Ext2DirEnt → σ → Int × σ) (world : World) (arg : σ)

inductive Comes : Head → σ → Prop where
  | start : Comes (.start env world) arg
  | next {h : Head} {a b : σ} {delta : Nat} {data : Mem} {after : World} (comes : Comes h a)
      (read : ReadsBlock env dir h delta (some data) after) (more : delta ≠ 0)
      (on : scanBlock dir callback data dir.blockSize 0 a = (false,b)) : Comes ⟨some data,add64 h.offset delta,after⟩ b

inductive Meets (data : Mem) : Nat → σ → Prop where
  | start : Meets data 0 arg
  | next {i : Nat} {a b : σ} {r : Int} (meets : Meets data i a) (inside : i < dir.blockSize)
      (sized : (Ext2DirEnt.ofBytes (view data i)).totalSize ≠ 0)
      (call : callback (Ext2DirEnt.ofBytes (view data i)) a = (r,b)) (on : r ≠ 0) :
      Meets data (i + (Ext2DirEnt.ofBytes (view data i)).totalSize) b

variable {env dir callback world arg}

theorem meetsScan {data : Mem} {i : Nat} {a : σ} (meets : Meets dir callback arg data i a) :
    ∃ spent ≤ i, ∀ turns, scanBlock dir callback data (turns + spent) 0 arg = scanBlock dir callback data turns i a := by
  induction meets with
  | start => exact ⟨0,Nat.le_refl 0,fun _ => rfl⟩
  | @next i a b r meets inside sized call on ih =>
    obtain ⟨spent,short,same⟩ := ih
    refine ⟨spent + 1,by omega,fun turns => ?_⟩
    rw [← Nat.add_assoc,Nat.add_right_comm,same,scanBlock,if_neg (Nat.not_le_of_lt inside)]
    simp only [sized,call,on,if_false]

theorem deliveredSnoc {h last : Head} {blocks : List Mem} (delivered : Delivered env dir h blocks last) {delta : Nat}
    {data : Mem} {after : World} (read : ReadsBlock env dir last delta (some data) after) (more : delta ≠ 0) :
    Delivered env dir h (blocks ++ [data]) ⟨some data,add64 last.offset delta,after⟩ := by
  induction delivered with
  | nil => exact .cons read more .nil
  | cons first some _ ih => exact .cons first some (ih read)

theorem deliveredLast {h last : Head} {blocks : List Mem} {data : Mem}
    (delivered : Delivered env dir h (blocks ++ [data]) last) : ∃ mid delta after, Delivered env dir h blocks mid ∧
      ReadsBlock env dir mid delta (some data) after ∧ delta ≠ 0 := by
  induction blocks generalizing h with
  | nil =>
    obtain _ | ⟨read,more,_⟩ := delivered
    exact ⟨h,_,_,.nil,read,more⟩
  | cons first blocks ih =>
    obtain _ | ⟨read,more,tail⟩ := delivered
    obtain ⟨mid,delta,after,rest,last,some⟩ := ih tail
    exact ⟨mid,delta,after,.cons read more rest,last,some⟩

theorem comesDelivered {h : Head} {a : σ} (comes : Comes env dir callback world arg h a) :
    ∃ blocks, Delivered env dir (.start env world) blocks h ∧
      invoke callback (blocks.flatMap (entries dir.blockSize)) arg = (false,a) := by
  induction comes with
  | start => exact ⟨[],.nil,rfl⟩
  | @next h a b delta data after comes read more on ih =>
    obtain ⟨blocks,delivered,run⟩ := ih
    refine ⟨blocks ++ [data],deliveredSnoc delivered read more,?_⟩
    rw [List.flatMap_append,invokeAppend,run,List.flatMap_singleton,← on]
    exact (scanInvokes dir callback data dir.blockSize 0 a).symm

theorem deliveredComes {h last : Head} {a b : σ} {blocks : List Mem} (comes : Comes env dir callback world arg h a)
    (delivered : Delivered env dir h blocks last)
    (on : invoke callback (blocks.flatMap (entries dir.blockSize)) a = (false,b)) :
    Comes env dir callback world arg last b := by
  induction delivered generalizing a with
  | nil =>
    cases on
    exact comes
  | @cons h last delta data after rest read more tail ih =>
    rw [List.flatMap_cons,invokeAppend] at on
    have scan := scanInvokes dir callback data dir.blockSize 0 a
    by_cases stops : (invoke callback (entries dir.blockSize data) a).1 = true
    · rw [if_pos stops] at on
      rw [on] at stops
      exact absurd stops Bool.false_ne_true
    · rw [if_neg stops] at on
      exact ih (.next comes read more (scan.trans (Prod.ext (Bool.eq_false_iff.mpr stops) rfl))) on

theorem comesRuns {h : Head} {a : σ} (comes : Comes env dir callback world arg h a) : ∃ enough spent,
    ∀ turns ≥ enough, ∀ fuel,
      listLoop env dir callback turns (fuel + spent) (Head.start env world).block 0 arg (Head.start env world).world =
        listLoop env dir callback turns fuel h.block h.offset a h.world := by
  obtain ⟨blocks,delivered,on⟩ := comesDelivered comes
  obtain ⟨enough,after,run⟩ := deliveredRuns callback delivered arg
  refine ⟨enough,blocks.length,fun turns many fuel => ?_⟩
  have left := run turns many fuel
  rw [on] at left
  exact left

end Runs

section Bounds
variable (env : Env) (dir : BasicState) (filename : Mem) (arg : Nat) (world : World)

def RecordInside (bs : Nat) (data : Mem) (i : Nat) : Prop :=
  i + 6 ≤ bs ∧ ((Ext2DirEnt.ofBytes (view data i)).totalSize ≠ 0 →
    i + 8 + (Ext2DirEnt.ofBytes (view data i)).lowerNameLen ≤ bs)

/- Every record of the run lies in its block: total_size is read before anything else. -/
def StaysInside : Prop := ∀ h a, Comes env dir (callbackGetInodeInDir filename) world arg h a →
  ∀ delta data after, ReadsBlock env dir h delta (some data) after → delta ≠ 0 →
    ∀ i b, Meets dir (callbackGetInodeInDir filename) a data i b → i < dir.blockSize → RecordInside dir.blockSize data i

def SameName (ent : Ext2DirEnt) : Prop := strncmp ent.lowerNameLen ent.name filename = 0

inductive Fits (bs : Nat) (data : Mem) : Nat → Prop where
  | past {i : Nat} (beyond : bs ≤ i) : Fits bs data i
  | blank {i : Nat} (header : i + 6 ≤ bs) (zero : (Ext2DirEnt.ofBytes (view data i)).totalSize = 0) : Fits bs data i
  | named {i : Nat} (whole : i + 8 + (Ext2DirEnt.ofBytes (view data i)).lowerNameLen ≤ bs)
      (same : SameName filename (.ofBytes (view data i))) : Fits bs data i
  | record {i : Nat} (whole : i + 8 + (Ext2DirEnt.ofBytes (view data i)).lowerNameLen ≤ bs)
      (tail : Fits bs data (i + (Ext2DirEnt.ofBytes (view data i)).totalSize)) : Fits bs data i

def BlocksFit : Prop := ∀ blocks data last, Delivered env dir (.start env world) (blocks ++ [data]) last →
  (∀ ent ∈ blocks.flatMap (entries dir.blockSize), ¬ SameName filename ent) → Fits filename dir.blockSize data 0

variable {env dir filename arg world}

theorem callbackSame {ent : Ext2DirEnt} (same : SameName filename ent) (a : Nat) :
    callbackGetInodeInDir filename ent a = (0,ent.inode) := if_neg (not_not.mpr same)

theorem callbackOther {ent : Ext2DirEnt} (other : ¬ SameName filename ent) (a : Nat) :
    callbackGetInodeInDir filename ent a = (1,a) := if_pos other

theorem invokeUnnamed {ents : List Ext2DirEnt} (a : Nat) : (∀ ent ∈ ents, ¬ SameName filename ent) ↔
    (invoke (callbackGetInodeInDir filename) ents a).1 = false := by
  induction ents with
  | nil => exact iff_of_true nofun rfl
  | cons ent rest ih =>
    rw [List.forall_mem_cons,invoke,ih]
    by_cases same : SameName filename ent
    · rw [callbackSame same]
      exact iff_of_false (fun both => both.1 same) Bool.noConfusion
    · rw [callbackOther same]
      exact ⟨fun both => both.2,fun on => ⟨same,on⟩⟩

theorem recordFits {data : Mem} {i : Nat} (fits : Fits filename dir.blockSize data i) (inside : i < dir.blockSize) :
    RecordInside dir.blockSize data i := by
  cases fits with
  | past beyond => omega
  | blank header zero => exact ⟨header,fun some => absurd zero some⟩
  | named whole _ => exact ⟨by omega,fun _ => whole⟩
  | record whole _ => exact ⟨by omega,fun _ => whole⟩

theorem meetsFits {data : Mem} (fits : Fits filename dir.blockSize data 0) {a b i : Nat}
    (meets : Meets dir (callbackGetInodeInDir filename) a data i b) : Fits filename dir.blockSize data i := by
  induction meets with
  | start => exact fits
  | @next i a b r meets inside sized call on ih =>
    cases ih with
    | past beyond => omega
    | blank _ zero => exact absurd zero sized
    | named _ same =>
      rw [callbackSame same] at call
      cases call
      exact absurd rfl on
    | record _ tail => exact tail

theorem fitsFrom {data : Mem} {a : Nat} (within : ∀ i b, Meets dir (callbackGetInodeInDir filename) a data i b →
    i < dir.blockSize → RecordInside dir.blockSize data i) {i b : Nat}
    (meets : Meets dir (callbackGetInodeInDir filename) a data i b) : Fits filename dir.blockSize data i := by
  induction left : dir.blockSize - i using Nat.strong_induction_on generalizing i b with
  | _ left ih =>
    by_cases beyond : dir.blockSize ≤ i
    · exact .past beyond
    · obtain ⟨header,whole⟩ := within i b meets (by omega)
      by_cases zero : (Ext2DirEnt.ofBytes (view data i)).totalSize = 0
      · exact .blank header zero
      · by_cases same : SameName filename (.ofBytes (view data i))
        · exact .named (whole zero) same
        · have next := Meets.next meets (by omega) zero (callbackOther same b) Int.one_ne_zero
          exact .record (whole zero) (ih _ (by omega) next rfl)

theorem insideFits (within : StaysInside env dir filename arg world) : BlocksFit env dir filename world := by
  intro blocks data last delivered others
  obtain ⟨mid,delta,after,before,read,more⟩ := deliveredLast delivered
  have on : invoke (callbackGetInodeInDir filename) (blocks.flatMap (entries dir.blockSize)) arg =
    (false,(invoke (callbackGetInodeInDir filename) (blocks.flatMap (entries dir.blockSize)) arg).2) :=
    Prod.ext ((invokeUnnamed arg).mp others) rfl
  exact fitsFrom (within mid _ (deliveredComes .start before on) delta data after read more) .start

theorem fitsInside (fits : BlocksFit env dir filename world) : StaysInside env dir filename arg world := by
  intro h a comes delta data after read more i b meets inside
  obtain ⟨blocks,delivered,on⟩ := comesDelivered comes
  have others := (invokeUnnamed arg).mpr (congrArg Prod.fst on)
  exact recordFits (meetsFits (fits blocks data _ (deliveredSnoc delivered read more) others) meets) inside

end Bounds

/-- A search reads only bytes of the blocks it was given exactly when the records of each
block, up to the first of the name, follow each other without one that is cut off. -/
theorem staysInsideIff (env : Env) (dir : BasicState) (filename : Mem) (arg : Nat) (world : World) :
    StaysInside env dir filename arg world ↔ BlocksFit env dir filename world := ⟨insideFits,fitsInside⟩

def cutBytes : List UInt8 := [5,0,0,0,252,3,1,2,46]
def cutWorld : World := ⟨fun i => if i < 1024 then 0 else cutBytes.getD (i - 1024) 0,0,0,0⟩

theorem headerCut : ¬ ∀ (env : Env) (dir : BasicState) (filename : Mem) (arg : Nat) (world : World),
    StaysInside env dir filename arg world := by
  intro all
  have full : dotEnv.Full := fun _ _ _ => le_rfl
  have block : BlockSize dotDirectory.blockSize := ⟨0,by decide,rfl⟩
  obtain ⟨after,_,read⟩ := (headReads full (fun _ => rfl) block rfl 0 (by decide) (alloc dotEnv cutWorld).2 zeros).2 1 rfl
  have within := all dotEnv dotDirectory zeros 0 cutWorld _ 0 .start _ _ after read (by decide)
  have call : callbackGetInodeInDir zeros (.ofBytes (view (filled 1024 zeros cutWorld.disk 1) 0)) 0 = (1,0) := rfl
  have second := within _ 0 (.next .start (by decide) (by decide) call (by decide)) (by decide)
  exact absurd second.1 (by decide)

section Ends
variable {σ : Type} (env : Env) (dir : BasicState) (node : Ext2Inode) (callback : Ext2DirEnt → σ → Int × σ) (arg : σ)
  (world : World)

structure EndsWithin (size : Nat) : Prop where
  ends : ∃ enough, ∀ fuel ≥ enough, ∃ r, ext2ListDirectory env dir callback fuel arg world = .ret r
  within : ∀ h a, Comes env dir callback world arg h a → ∀ delta read after, ReadsBlock env dir h delta read after →
    delta ≠ 0 → h.offset + delta ≤ size

def firstBlocks (buffer image : Mem) (k : Nat) : List Mem :=
  (List.range k).filterMap fun j => (resolved dir node image j).map (filled dir.blockSize buffer image)

/- Up to the size, a block that is not there or a record that stops the listing. -/
def Bounded (buffer : Mem) (size : Nat) : Prop := ∃ k, k * dir.blockSize ≤ size ∧
  (∀ j < k, (resolved dir node world.disk j).isSome) ∧ (resolved dir node world.disk k = none ∨
    (invoke callback ((firstBlocks dir node buffer world.disk k).flatMap (entries dir.blockSize)) arg).1 = true)

structure HeadAt (buffer : Mem) (k : Nat) (h : Head) : Prop where
  block : ∃ data, h.block = some data ∧
    ∀ b, filled dir.blockSize data world.disk b = filled dir.blockSize buffer world.disk b
  offset : h.offset = k * dir.blockSize
  disk : h.world.disk = world.disk

variable {env dir node callback arg world} {buffer : Mem} {k : Nat} {h : Head}

theorem blocksNext {image : Mem} {b : Nat} (here : resolved dir node image k = some b) :
    firstBlocks dir node buffer image (k + 1) =
      firstBlocks dir node buffer image k ++ [filled dir.blockSize buffer image b] := by
  simp [firstBlocks,List.range_succ,here]

theorem startAt (fresh : env.fresh world.allocs = some buffer) : HeadAt dir world buffer 0 (.start env world) :=
  ⟨⟨buffer,fresh,fun _ => rfl⟩,(Nat.zero_mul _).symm,rfl⟩

theorem readGone (full : env.Full) (allocates : env.Allocates) (block : BlockSize dir.blockSize)
    (held : dir.node = some node) (at_ : HeadAt dir world buffer k h) (below : k * dir.blockSize < 2^64)
    (gone : resolved dir node world.disk k = none) : ∃ read after, ReadsBlock env dir h 0 read after := by
  obtain ⟨data,offset,now⟩ := h
  obtain ⟨⟨data,rfl,same⟩,rfl,disk⟩ := at_
  obtain ⟨after,read,run⟩ := (headReads full allocates block held k below now data).1 (disk ▸ gone)
  exact ⟨read,after,run⟩

theorem readHere (full : env.Full) (allocates : env.Allocates) (block : BlockSize dir.blockSize)
    (held : dir.node = some node) (at_ : HeadAt dir world buffer k h) (below : k * dir.blockSize < 2^64) {b : Nat}
    (here : resolved dir node world.disk k = some b) : ∃ after,
      ReadsBlock env dir h dir.blockSize (some (filled dir.blockSize buffer world.disk b)) after ∧
      ∀ j, add64 h.offset dir.blockSize = j * dir.blockSize → HeadAt dir world buffer j
        ⟨some (filled dir.blockSize buffer world.disk b),add64 h.offset dir.blockSize,after⟩ := by
  obtain ⟨data,offset,now⟩ := h
  obtain ⟨⟨data,rfl,same⟩,rfl,disk⟩ := at_
  obtain ⟨after,kept,run⟩ := (headReads full allocates block held k below now data).2 b (disk ▸ here)
  rw [disk,same] at run
  exact ⟨after,run,fun j next => ⟨⟨_,rfl,filledAgain _ _ _ _⟩,next,kept.trans disk⟩⟩

theorem nextOffset (at_ : HeadAt dir world buffer k h) (inside : (k + 1) * dir.blockSize < 2^64) :
    add64 h.offset dir.blockSize = (k + 1) * dir.blockSize := by
  rw [Nat.succ_mul] at inside ⊢
  rw [at_.offset]
  exact add64Eq inside

theorem blocksOn {image : Mem} {b : Nat} (here : resolved dir node image k = some b) {a : σ}
    (on : invoke callback ((firstBlocks dir node buffer image k).flatMap (entries dir.blockSize)) arg = (false,a)) :
    invoke callback ((firstBlocks dir node buffer image (k + 1)).flatMap (entries dir.blockSize)) arg =
      scanBlock dir callback (filled dir.blockSize buffer image b) dir.blockSize 0 a := by
  rw [blocksNext here,List.flatMap_append,invokeAppend,on,List.flatMap_singleton]
  exact (scanInvokes dir callback _ dir.blockSize 0 a).symm

section Serving
variable (full : env.Full) (allocates : env.Allocates) (block : BlockSize dir.blockSize) (held : dir.node = some node)
  (fresh : env.fresh world.allocs = some buffer) {K : Nat} (below : K * dir.blockSize < 2^64)
  (mapped : ∀ j < K, (resolved dir node world.disk j).isSome)
include full allocates block held fresh below mapped

theorem blocksDelivered (le : k ≤ K) : ∃ h, HeadAt dir world buffer k h ∧
    Delivered env dir (.start env world) (firstBlocks dir node buffer world.disk k) h := by
  induction k with
  | zero => exact ⟨_,startAt fresh,.nil⟩
  | succ k ih =>
    obtain ⟨h,at_,delivered⟩ := ih (Nat.le_of_succ_le le)
    obtain ⟨b,here⟩ := Option.isSome_iff_exists.mp (mapped k le)
    have inside := Nat.lt_of_le_of_lt (Nat.mul_le_mul_right dir.blockSize le) below
    obtain ⟨after,read,next⟩ := readHere full allocates block held at_
      (Nat.lt_of_le_of_lt (Nat.mul_le_mul_right _ (Nat.le_succ k)) inside) here
    have pos := block.bounds.1
    rw [blocksNext here]
    exact ⟨_,next _ (nextOffset at_ inside),deliveredSnoc delivered read (by omega)⟩

variable (last : resolved dir node world.disk K = none ∨
  (invoke callback ((firstBlocks dir node buffer world.disk K).flatMap (entries dir.blockSize)) arg).1 = true)
include last

omit fresh mapped in
theorem lastReads {a : σ} (at_ : HeadAt dir world buffer K h)
    (on : invoke callback ((firstBlocks dir node buffer world.disk K).flatMap (entries dir.blockSize)) arg = (false,a))
    {delta : Nat} {read : Option Mem} {after : World} (run : ReadsBlock env dir h delta read after) : delta = 0 := by
  obtain gone | stops := last
  · obtain ⟨_,_,empty⟩ := readGone full allocates block held at_ below gone
    exact (readsUnique run empty).1
  · rw [on] at stops
    exact absurd stops Bool.false_ne_true

theorem comesBelow {a : σ} (comes : Comes env dir callback world arg h a) : ∃ k ≤ K, HeadAt dir world buffer k h ∧
    invoke callback ((firstBlocks dir node buffer world.disk k).flatMap (entries dir.blockSize)) arg = (false,a) := by
  induction comes with
  | start => exact ⟨0,Nat.zero_le _,startAt fresh,rfl⟩
  | @next h a c delta data after comes read more on ih =>
    obtain ⟨k,le,at_,run⟩ := ih
    obtain rfl | less := Nat.eq_or_lt_of_le le
    · exact absurd (lastReads full allocates block held below last at_ run read) more
    · obtain ⟨b,here⟩ := Option.isSome_iff_exists.mp (mapped k less)
      have inside := Nat.lt_of_le_of_lt (Nat.mul_le_mul_right dir.blockSize less) below
      obtain ⟨final,whole,next⟩ := readHere full allocates block held at_
        (Nat.lt_of_le_of_lt (Nat.mul_le_mul_right _ le) below) here
      obtain ⟨rfl,same,rfl⟩ := readsUnique read whole
      cases same
      exact ⟨k + 1,less,next _ (nextOffset at_ inside),(blocksOn here run).trans on⟩

theorem listingEnds : ∃ enough, ∀ fuel ≥ enough, ∃ r, ext2ListDirectory env dir callback fuel arg world = .ret r := by
  obtain ⟨h,at_,delivered⟩ := blocksDelivered full allocates block held fresh below mapped (Nat.le_refl K)
  obtain gone | stops := last
  · obtain ⟨read,after,ended⟩ := readGone full allocates block held at_ below gone
    obtain ⟨enough,ends⟩ := deliveredEnds callback delivered ended arg
    refine ⟨enough,fun fuel many => ?_⟩
    obtain ⟨final,run⟩ := ends fuel many
    exact ⟨_,run⟩
  · obtain ⟨enough,after,run⟩ := deliveredRuns callback delivered arg
    refine ⟨max enough (firstBlocks dir node buffer world.disk K).length,fun fuel many => ?_⟩
    obtain ⟨more,whole⟩ := Nat.exists_eq_add_of_le' (show (firstBlocks dir node buffer world.disk K).length ≤ fuel by omega)
    have loop := run fuel (by omega) more
    rw [← whole,if_pos stops] at loop
    exact ⟨_,loop⟩

theorem readsBelow {a : σ} (comes : Comes env dir callback world arg h a) {delta : Nat} {read : Option Mem} {after : World}
    (run : ReadsBlock env dir h delta read after) (more : delta ≠ 0) : h.offset + delta ≤ K * dir.blockSize := by
  obtain ⟨k,le,at_,on⟩ := comesBelow full allocates block held fresh below mapped last comes
  obtain rfl | less := Nat.eq_or_lt_of_le le
  · exact absurd (lastReads full allocates block held below last at_ on run) more
  · obtain ⟨b,here⟩ := Option.isSome_iff_exists.mp (mapped k less)
    have up : (k + 1) * dir.blockSize ≤ K * dir.blockSize := Nat.mul_le_mul_right _ less
    obtain ⟨_,whole,_⟩ := readHere full allocates block held at_
      (Nat.lt_of_le_of_lt (Nat.mul_le_mul_right _ le) below) here
    obtain ⟨rfl,_,_⟩ := readsUnique run whole
    rwa [at_.offset,← Nat.succ_mul]

end Serving

theorem boundedEnds (full : env.Full) (allocates : env.Allocates) (block : BlockSize dir.blockSize)
    (held : dir.node = some node) (fresh : env.fresh world.allocs = some buffer) {size : Nat} (low : size < 2^64)
    (bounded : Bounded dir node callback arg world buffer size) : EndsWithin env dir callback arg world size := by
  obtain ⟨K,inside,mapped,last⟩ := bounded
  have below : K * dir.blockSize < 2^64 := Nat.lt_of_le_of_lt inside low
  exact ⟨listingEnds full allocates block held fresh below mapped last,fun h a comes delta read after run more =>
    (readsBelow full allocates block held fresh below mapped last comes run more).trans inside⟩

theorem boundedFrom (full : env.Full) (allocates : env.Allocates) (block : BlockSize dir.blockSize)
    (held : dir.node = some node) {size : Nat} (low : size < 2^64)
    (within : ∀ h a, Comes env dir callback world arg h a → ∀ delta read after, ReadsBlock env dir h delta read after →
      delta ≠ 0 → h.offset + delta ≤ size) {a : σ} (comes : Comes env dir callback world arg h a)
    (at_ : HeadAt dir world buffer k h) (mapped : ∀ j < k, (resolved dir node world.disk j).isSome)
    (on : invoke callback ((firstBlocks dir node buffer world.disk k).flatMap (entries dir.blockSize)) arg = (false,a))
    (inside : k * dir.blockSize ≤ size) : Bounded dir node callback arg world buffer size := by
  have pos := block.bounds.1
  induction left : size - k * dir.blockSize using Nat.strong_induction_on generalizing k h a with
  | _ left ih =>
    cases here : resolved dir node world.disk k with
    | none => exact ⟨k,inside,mapped,.inl here⟩
    | some b =>
      obtain ⟨after,run,next⟩ := readHere full allocates block held at_ (Nat.lt_of_le_of_lt inside low) here
      have up : (k + 1) * dir.blockSize ≤ size := by
        have far := within h a comes _ _ _ run (by omega)
        rwa [at_.offset,← Nat.succ_mul] at far
      have more : ∀ j < k + 1, (resolved dir node world.disk j).isSome := fun j less =>
        (Nat.lt_succ_iff_lt_or_eq.mp less).elim (mapped j) fun same => by rw [same,here]; rfl
      have whole := blocksOn here on
      cases scan : scanBlock dir callback (filled dir.blockSize buffer world.disk b) dir.blockSize 0 a with
      | mk stopped c => cases stopped with
        | true => exact ⟨k + 1,up,more,.inr (congrArg Prod.fst (whole.trans scan))⟩
        | false =>
          have further : k * dir.blockSize < (k + 1) * dir.blockSize :=
            Nat.mul_lt_mul_of_pos_right (Nat.lt_succ_self k) (by omega)
          exact ih _ (by omega) (.next comes run (by omega) scan)
            (next _ (nextOffset at_ (Nat.lt_of_le_of_lt up low))) more (whole.trans scan) up rfl

theorem endsBounded (full : env.Full) (allocates : env.Allocates) (block : BlockSize dir.blockSize)
    (held : dir.node = some node) (fresh : env.fresh world.allocs = some buffer) {size : Nat} (low : size < 2^64)
    (ends : EndsWithin env dir callback arg world size) : Bounded dir node callback arg world buffer size :=
  boundedFrom full allocates block held low ends.within .start (startAt fresh)
    (fun _ none => absurd none (Nat.not_lt_zero _)) rfl (by omega)

end Ends

/-- A listing ends within the directory's recorded size exactly when the blocks end, or one of
their records stops it, there: the size itself is never looked at. -/
theorem endsWithinIff {σ : Type} {env : Env} {dir : BasicState} {node : Ext2Inode} {world : World} {buffer : Mem}
    (full : env.Full) (allocates : env.Allocates) (block : BlockSize dir.blockSize) (held : dir.node = some node)
    (fresh : env.fresh world.allocs = some buffer) (callback : Ext2DirEnt → σ → Int × σ) (arg : σ) :
    EndsWithin env dir callback arg world node.sizeLow.toNat ↔
      Bounded dir node callback arg world buffer node.sizeLow.toNat := by
  have low : node.sizeLow.toNat < 2^64 := Nat.lt_trans node.sizeLow.toNat_lt (by decide)
  exact ⟨endsBounded full allocates block held fresh low,boundedEnds full allocates block held fresh low⟩

def visitAll (_ : Ext2DirEnt) (arg : Unit) : Int × Unit := (1,arg)

theorem dotEndsWithin : EndsWithin dotEnv dotDirectory visitAll () dotWorld 1024 := by
  have full : dotEnv.Full := fun _ _ _ => le_rfl
  have block : BlockSize dotDirectory.blockSize := ⟨0,by decide,rfl⟩
  have fresh : dotEnv.fresh dotWorld.allocs = some zeros := rfl
  have bounded : Bounded dotDirectory ⟨0x41ED,1024,fun i => if i = 0 then 1 else 0,0,0,0⟩ visitAll () dotWorld zeros 1024 :=
    ⟨1,by decide,by decide,.inl rfl⟩
  exact (endsWithinIff full (fun _ => rfl) block rfl fresh visitAll ()).mpr bounded

theorem invokeAll (ents : List Ext2DirEnt) : invoke visitAll ents () = (false,()) := by
  induction ents with
  | nil => rfl
  | cons ent rest ih => exact ih

theorem neverEnds {env : Env} {dir : BasicState} {node : Ext2Inode} {world : World} {buffer : Mem} (full : env.Full)
    (allocates : env.Allocates) (block : BlockSize dir.blockSize) (held : dir.node = some node)
    (all : ∀ k, (resolved dir node world.disk k).isSome) {turns fuel k : Nat} {h : Head}
    (at_ : HeadAt dir world buffer k h) (below : k * dir.blockSize < 2^64) (r : Unit × World) :
    listLoop env dir visitAll turns fuel h.block h.offset () h.world ≠ .ret r := by
  obtain ⟨large,_,divides⟩ := block.bounds
  induction fuel generalizing k h with
  | zero =>
    intro run
    cases run
  | succ fuel ih =>
    intro run
    obtain ⟨b,here⟩ := Option.isSome_iff_exists.mp (all k)
    obtain ⟨after,⟨need,read⟩,next⟩ := readHere full allocates block held at_ below here
    obtain ⟨data,same,_⟩ := at_.block
    rw [listLoop] at run
    obtain ⟨⟨delta,now,read'⟩,first,rest⟩ := Outcome.bindRet run
    have known := read 0
    rw [same] at first known
    obtain ⟨rfl,rfl,rfl⟩ := readAgree held (by omega) known first
    have scan := scanInvokes dir visitAll (filled dir.blockSize buffer world.disk b) dir.blockSize 0 ()
    rw [invokeAll] at scan
    simp only [if_neg (show dir.blockSize ≠ 0 by omega),scan,Bool.false_eq_true,if_false] at rest
    obtain ⟨j,place⟩ : dir.blockSize ∣ add64 h.offset dir.blockSize := by
      rw [at_.offset]
      exact (Nat.dvd_mod_iff divides).mpr (Nat.dvd_add (Nat.dvd_mul_left _ k) (Nat.dvd_refl _))
    rw [Nat.mul_comm] at place
    have inside : j * dir.blockSize < 2^64 := place ▸ Nat.mod_lt _ (by decide)
    exact ih (next j place) inside rest

theorem lookupStripe {entry : Nat → Nat → Nat} (own : ∀ t i, Stripe t → i < 256 → entry t i = t) {q : Path}
    (within : q.Within 12 256) : (lookup (roots twoTables) entry q).isSome := by
  have one : Stripe 1 := .inl rfl
  have led {t i : Nat} (stripe : Stripe t) (inside : i < 256) : follow (entry t i) = some t := by
    rw [own t i stripe inside]
    exact followPos (by rcases stripe with rfl | rfl <;> decide)
  cases q with
  | direct i => rfl
  | single i =>
    change (follow (entry 2 i)).isSome = true
    rw [led (.inr rfl) within]
    rfl
  | double i j =>
    change ((follow (entry 1 i)).bind fun u => follow (entry u j)).isSome = true
    rw [led one within.1,Option.bind_some,led one within.2]
    rfl
  | triple i j l =>
    change ((follow (entry 1 i)).bind fun u => (follow (entry u j)).bind fun v => follow (entry v l)).isSome = true
    rw [led one within.1,Option.bind_some,led one within.2.1,Option.bind_some,led one within.2.2]
    rfl

theorem stripeResolved (k : Nat) : (resolved (striped 1024) twoTables (stripes 1024) k).isSome :=
  lookupStripe (fun _ _ stripe inside => stripeEntry ⟨0,by decide,rfl⟩ (by decide) stripe inside)
    (placeWithin 1024 k (by decide))

theorem roundNeverEnds : ¬ ∀ (env : Env) (dir : BasicState) (node : Ext2Inode) (world : World), env.Full →
    env.Allocates → BlockSize dir.blockSize → dir.node = some node → ∀ (σ : Type) (callback : Ext2DirEnt → σ → Int × σ)
      (arg : σ), EndsWithin env dir callback arg world node.sizeLow.toNat := by
  intro every
  have block : BlockSize (striped 1024).blockSize := ⟨0,by decide,rfl⟩
  have allocates : stripeEnv.Allocates := fun _ => rfl
  obtain ⟨enough,ends⟩ := (every stripeEnv (striped 1024) twoTables (stripeWorld 1024) stripeFull allocates block rfl Unit
    visitAll ()).ends
  obtain ⟨r,run⟩ := ends enough (Nat.le_refl _)
  have fresh : stripeEnv.fresh (stripeWorld 1024).allocs = some zeros := rfl
  have first : 0 * (striped 1024).blockSize < 2^64 := by
    rw [Nat.zero_mul]
    exact Nat.two_pow_pos 64
  have held : (striped 1024).node = some twoTables := rfl
  have all : ∀ k, (resolved (striped 1024) twoTables (stripeWorld 1024).disk k).isSome := stripeResolved
  exact neverEnds stripeFull allocates block held all (startAt fresh) first r run

end Kdrivers.Ext2Untrusted
