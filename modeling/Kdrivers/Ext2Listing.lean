import Mathlib.Data.List.Forall2
import Kdrivers.Ext2Directory
import Kdrivers.Ext2Size

/-! The listing of a directory as a run of the callback over the records that its reads
deliver, one block after the other (util.c). -/
namespace Kdrivers.Ext2Listing
open Bytes CString Vfs Ext2State Ext2Traverse Ext2Transfer Ext2Fresh Ext2Directory

structure Head where
  block : Option Mem
  offset : Nat
  world : World

def Head.start (env : Env) (world : World) : Head := ⟨(alloc env world).1,0,(alloc env world).2⟩

section Heads
variable (env : Env) (dir : BasicState)

def ReadsBlock (h : Head) (delta : Nat) (read : Option Mem) (after : World) : Prop := ∃ fuel, ∀ k,
  ext2ReadInodeData env (fuel + k) dir h.block h.offset dir.blockSize h.world = .ret (delta,after,read)

inductive Delivered : Head → List Mem → Head → Prop where
  | nil {h : Head} : Delivered h [] h
  | cons {h last : Head} {delta : Nat} {data : Mem} {after : World} {rest : List Mem}
      (read : ReadsBlock env dir h delta (some data) after) (more : delta ≠ 0)
      (tail : Delivered ⟨some data,add64 h.offset delta,after⟩ rest last) : Delivered h (data::rest) last

end Heads

section Runs
variable {σ : Type} {env : Env} {dir : BasicState} (callback : Ext2DirEnt → σ → Int × σ)

theorem readsUnique {h : Head} {n m : Nat} {r q : Option Mem} {a b : World} (left : ReadsBlock env dir h n r a)
    (right : ReadsBlock env dir h m q b) : n = m ∧ r = q ∧ a = b := by
  obtain ⟨f,left⟩ := left
  obtain ⟨g,right⟩ := right
  have other := right f
  rw [Nat.add_comm] at other
  cases (left g).symm.trans other
  exact ⟨rfl,rfl,rfl⟩

theorem deliveredRuns {h last : Head} {blocks : List Mem} (delivered : Delivered env dir h blocks last) (arg : σ) :
    ∃ enough after, ∀ turns ≥ enough, ∀ fuel,
      listLoop env dir callback turns (fuel + blocks.length) h.block h.offset arg h.world =
        if (invoke callback (blocks.flatMap (entries dir.blockSize)) arg).1 then
          .ret ((invoke callback (blocks.flatMap (entries dir.blockSize)) arg).2,after)
        else listLoop env dir callback turns fuel last.block last.offset
          (invoke callback (blocks.flatMap (entries dir.blockSize)) arg).2 last.world := by
  induction delivered generalizing arg with
  | @nil h => exact ⟨0,h.world,fun _ _ _ => rfl⟩
  | @cons h last delta data after rest read more tail ih =>
    obtain ⟨need,read⟩ := read
    obtain ⟨enough,final,later⟩ := ih (invoke callback (entries dir.blockSize data) arg).2
    have scan : scanBlock dir callback data dir.blockSize 0 arg = invoke callback (entries dir.blockSize data) arg :=
      scanInvokes dir callback data dir.blockSize 0 arg
    have split := invokeAppend callback (entries dir.blockSize data) (rest.flatMap (entries dir.blockSize)) arg
    rw [← List.flatMap_cons] at split
    by_cases stops : (invoke callback (entries dir.blockSize data) arg).1 = true
    · refine ⟨need,after,fun turns many fuel => ?_⟩
      obtain ⟨j,rfl⟩ := Nat.exists_eq_add_of_le many
      rw [List.length_cons,← Nat.add_assoc,listLoop,read j,Outcome.retBind,split]
      simp only [more,if_false,scan,stops,if_true]
    · refine ⟨max need enough,final,fun turns many fuel => ?_⟩
      obtain ⟨j,rfl⟩ := Nat.exists_eq_add_of_le (show need ≤ turns by omega)
      rw [List.length_cons,← Nat.add_assoc,listLoop,read j,Outcome.retBind,split]
      simp only [more,if_false,scan,stops]
      exact later (need + j) (by omega) fuel

theorem deliveredEnds {world : World} {last : Head} {blocks : List Mem}
    (delivered : Delivered env dir (.start env world) blocks last) {read : Option Mem} {after : World}
    (ended : ReadsBlock env dir last 0 read after) (arg : σ) : ∃ enough, ∀ fuel ≥ enough, ∃ after,
      ext2ListDirectory env dir callback fuel arg world =
        .ret ((invoke callback (blocks.flatMap (entries dir.blockSize)) arg).2,after) := by
  obtain ⟨enough,final,run⟩ := deliveredRuns callback delivered arg
  obtain ⟨need,ended⟩ := ended
  refine ⟨max (max enough need) (blocks.length + 1),fun fuel many => ?_⟩
  obtain ⟨more,whole⟩ := Nat.exists_eq_add_of_le' (show blocks.length + 1 ≤ fuel by omega)
  have split : fuel = more + 1 + blocks.length := by omega
  have loop := run fuel (by omega) (more + 1)
  rw [← split] at loop
  obtain ⟨j,turns⟩ := Nat.exists_eq_add_of_le (show need ≤ fuel by omega)
  have empty := ended j
  rw [← turns] at empty
  change ∃ after, listLoop env dir callback fuel fuel (Head.start env world).block 0 arg (Head.start env world).world = _
  change listLoop env dir callback fuel fuel (Head.start env world).block 0 arg (Head.start env world).world = _ at loop
  rw [loop]
  split
  · exact ⟨_,rfl⟩
  · refine ⟨after,?_⟩
    rw [listLoop,empty,Outcome.retBind]
    rfl

end Runs

theorem laidBlocks {bs : Nat} {blocks : List Mem} {records : List (List Entry)}
    (laid : List.Forall₂ (Laid bs · 0) blocks records) :
    List.Forall₂ Entry.Held records.flatten (blocks.flatMap (entries bs)) := by
  induction laid with
  | nil => exact .nil
  | cons first _ ih =>
    rw [List.flatten_cons,List.flatMap_cons]
    exact List.rel_append (laidEntries first (Nat.le_of_eq (Nat.zero_add _).symm)) ih

section Images
variable {env : Env} {dir : BasicState} {node : Ext2Inode}

def filled (bs : Nat) (buffer image : Mem) (b : Nat) : Mem := patch buffer 0 bs (view image (mul64 b bs))

theorem filledAgain (bs : Nat) (buffer image : Mem) (a b : Nat) :
    filled bs (filled bs buffer image a) image b = filled bs buffer image b := by
  funext i
  by_cases inside : i < bs
  · rw [filled,patchInside (Nat.zero_le _) (by omega),filled,patchInside (Nat.zero_le _) (by omega)]
  · rw [filled,patchOutside (by omega),filled,patchOutside (by omega),filled,patchOutside (by omega)]

theorem headReads (full : env.Full) (allocates : env.Allocates) (block : BlockSize dir.blockSize)
    (held : dir.node = some node) (k : Nat) (below : k * dir.blockSize < 2^64) (world : World) (buffer : Mem) :
    (resolved dir node world.disk k = none → ∃ after read,
      ReadsBlock env dir ⟨some buffer,k * dir.blockSize,world⟩ 0 read after) ∧
    ∀ b, resolved dir node world.disk k = some b → ∃ after, after.disk = world.disk ∧
      ReadsBlock env dir ⟨some buffer,k * dir.blockSize,world⟩ dir.blockSize
        (some (filled dir.blockSize buffer world.disk b)) after := by
  obtain ⟨large,short,divides⟩ := block.bounds
  have start : add64 0 (k * dir.blockSize) = k * dir.blockSize := by
    rw [add64,Nat.zero_add]
    exact Nat.mod_eq_of_lt below
  have again : add64 (k * dir.blockSize) 0 = k * dir.blockSize := Nat.mod_eq_of_lt below
  have aligned : k * dir.blockSize % dir.blockSize = 0 := Nat.mul_mod_left k _
  have index : k * dir.blockSize / dir.blockSize = k := Nat.mul_div_cancel k (by omega)
  obtain ⟨n,r,after,returns,fetched,kept⟩ := readFetched full allocates block held
    (blockClimbs divides (by omega) below (show dir.blockSize ≤ _ by omega)) short world buffer
  rw [← again] at fetched
  have whole := chunkFetched block (by rw [start]; omega) fetched
  rw [start,index,aligned] at whole
  obtain ⟨rfl,gone⟩ | ⟨rfl,b,here,rfl⟩ := whole
  · refine ⟨fun _ => ⟨after,some r,returns⟩,fun b here => ?_⟩
    cases here.symm.trans (gone (by omega))
  · refine ⟨fun gone => ?_,fun c there => ?_⟩
    · cases here.symm.trans gone
    · cases here.symm.trans there
      have base : add64 (mul64 b dir.blockSize) 0 = mul64 b dir.blockSize := Nat.mod_eq_of_lt (Nat.mod_lt _ (by decide))
      rw [base] at returns
      exact ⟨after,kept rfl,returns⟩

end Images

/-- A listing of blocks of records runs the callback over exactly their records, in order and
up to the first that stops it, whatever the callback does and keeps. -/
theorem listsEach {env : Env} {dir : BasicState} {world after : World} {blocks : List Mem} {last : Head}
    {read : Option Mem} {records : List (List Entry)} (delivered : Delivered env dir (.start env world) blocks last)
    (ended : ReadsBlock env dir last 0 read after) (laid : List.Forall₂ (Laid dir.blockSize · 0) blocks records) :
    ∃ ents, List.Forall₂ Entry.Held records.flatten ents ∧
      ∀ (σ : Type) (callback : Ext2DirEnt → σ → Int × σ) (arg : σ), ∃ enough, ∀ fuel ≥ enough, ∃ final,
        ext2ListDirectory env dir callback fuel arg world = .ret ((invoke callback ents arg).2,final) :=
  ⟨_,laidBlocks laid,fun _ callback arg => deliveredEnds callback delivered ended arg⟩

def dotEnv : Env := ⟨fun _ _ n => n,fun _ => some zeros⟩

def dotBlock : Mem := filled 1024 zeros dotWorld.disk 1

theorem dotDelivered : ∃ last after read, Delivered dotEnv dotDirectory (.start dotEnv dotWorld) [dotBlock] last ∧
    ReadsBlock dotEnv dotDirectory last 0 read after := by
  have full : dotEnv.Full := fun _ _ _ => le_rfl
  have block : BlockSize dotDirectory.blockSize := ⟨0,by decide,rfl⟩
  obtain ⟨after,kept,read⟩ := (headReads full (fun _ => rfl) block rfl 0 (by decide)
    (alloc dotEnv dotWorld).2 zeros).2 1 rfl
  have gone : resolved dotDirectory ⟨0x41ED,1024,fun i => if i = 0 then 1 else 0,0,0,0⟩ after.disk 1 = none := by
    rw [kept]
    rfl
  obtain ⟨final,data,ended⟩ := (headReads full (fun _ => rfl) block rfl 1 (by decide) after dotBlock).1 gone
  exact ⟨_,final,data,.cons read (by decide) .nil,ended⟩

theorem dotLaid : Laid 1024 dotBlock 0 [dotRecord.entry,dotDotRecord.entry] := by
  refine .entry ⟨rfl,rfl,rfl,?_⟩ (.entry ⟨rfl,rfl,rfl,?_⟩ .done)
  · unfold Starts
    decide
  · unfold Starts
    decide

theorem dotEach : ∃ ents, List.Forall₂ Entry.Held [dotRecord.entry,dotDotRecord.entry] ents ∧
    ∀ (σ : Type) (callback : Ext2DirEnt → σ → Int × σ) (arg : σ), ∃ enough, ∀ fuel ≥ enough, ∃ final,
      ext2ListDirectory dotEnv dotDirectory callback fuel arg dotWorld = .ret ((invoke callback ents arg).2,final) := by
  obtain ⟨last,after,read,delivered,ended⟩ := dotDelivered
  exact listsEach delivered ended (.cons dotLaid .nil)

end Kdrivers.Ext2Listing
