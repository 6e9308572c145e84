import Kdrivers.Isolation

/-! Partitions of a drive (partition_dummy.c): their reads and writes go through to the
drive, from the partition's start on. -/
namespace Kdrivers.PartitionDummy
open Bytes Isolation

structure PartitionArgs where
  attrs : Nat
  lbaStart : Nat
  lbaSize : Nat
  sizeInLbas : Nat
  partitionNumber : Nat

structure PartitionState where
  attrs : Nat
  startLba : Nat
  sizeInLbas : Nat
  lbaSize : Nat
  partitionNumber : Nat

-- memory says whether there is some for the state
def initPartitionDummy (args : Option PartitionArgs) (memory : Bool) : Int × Option PartitionState := match args with
  | none => (-1,none)
  | some args =>
    if memory = false then (-2,none)
    else (0,some ⟨args.attrs,args.lbaStart,args.sizeInLbas,args.lbaSize,args.partitionNumber⟩)

def statPartitionDummy (state : PartitionState) : Nat × Nat × Nat :=
  (state.lbaSize,state.sizeInLbas,mul64 state.lbaSize state.sizeInLbas)

def seekPosition (state : PartitionState) (offset : Nat) : Nat := add64 offset (mul64 state.startLba state.lbaSize)

def readPartitionDummy (state : PartitionState) (drive : Mem) (buffer : Option Mem) (size count offset : Nat) :
    Nat × Option Mem := match buffer with
  | none => (0,none)
  | some buffer =>
    if size = 0 ∨ count = 0 then (0,some buffer)
    else (size * count,some (patch buffer 0 (size * count) (view drive (seekPosition state offset))))

def writePartitionDummy (state : PartitionState) (drive : Mem) (buffer : Option Mem) (size count offset : Nat) :
    Nat × Mem := match buffer with
  | none => (0,drive)
  | some buffer =>
    if size = 0 ∨ count = 0 then (0,drive)
    else (size * count,patch drive (seekPosition state offset) (size * count) buffer)

structure Call (ι : Type) where
  partition : ι
  write : Bool
  size : Nat
  count : Nat
  offset : Nat
  buffer : Mem
  position : offset < 2^63

variable {ι : Type} [DecidableEq ι]

def Call.run (states : ι → PartitionState) (drive : Mem) (c : Call ι) : Mem × Mem :=
  if c.write then (c.buffer,(writePartitionDummy (states c.partition) drive (some c.buffer) c.size c.count c.offset).2)
  else
    let out := (readPartitionDummy (states c.partition) drive (some c.buffer) c.size c.count c.offset).2
    (out.getD c.buffer,drive)

def runAll (states : ι → PartitionState) (drive : Mem) (calls : List (Call ι)) : Mem :=
  calls.foldl (fun drive c => (c.run states drive).2) drive

def Within (state : PartitionState) (k : Nat) : Prop :=
  state.startLba * state.lbaSize ≤ k ∧ k < (state.startLba + state.sizeInLbas) * state.lbaSize

structure Divided (states : ι → PartitionState) : Prop where
  lbaSize : ∀ i j, (states i).lbaSize = (states j).lbaSize
  blocks : ∀ i j, i ≠ j → ∀ b, (states i).startLba ≤ b → b < (states i).startLba + (states i).sizeInLbas →
    ¬ ((states j).startLba ≤ b ∧ b < (states j).startLba + (states j).sizeInLbas)

def through (i : ι) (calls : List (Call ι)) : List (Call ι) := calls.filter fun c => c.partition = i

structure Isolated (states : ι → PartitionState) (drive : Mem) (calls : List (Call ι)) : Prop where
  inside : ∀ c ∈ calls, ∀ i < c.size * c.count, Within (states c.partition) (seekPosition (states c.partition) c.offset + i)
  unchanged : ∀ before c after, calls = before ++ c::after → ∀ j, j ≠ c.partition → ∀ k, Within (states j) k →
    (c.run states (runAll states drive before)).2 k = runAll states drive before k
  unseen : ∀ before c after, calls = before ++ c::after →
    (c.run states (runAll states drive before)).1 = (c.run states (runAll states drive (through c.partition before))).1

/- The call stays in the partition's size, as stat reports it, and below the end of a uint64_t. -/
def Inside (state : PartitionState) (c : Call ι) : Prop := c.size * c.count = 0 ∨
  (c.offset + c.size * c.count ≤ state.sizeInLbas * state.lbaSize ∧ state.startLba * state.lbaSize + c.offset < 2^64)

omit [DecidableEq ι] in
theorem insideIff (state : PartitionState) (c : Call ι) :
    (∀ i < c.size * c.count, Within state (seekPosition state c.offset + i)) ↔ Inside state c := by
  have position := c.position
  have blocks : (state.startLba + state.sizeInLbas) * state.lbaSize =
      state.startLba * state.lbaSize + state.sizeInLbas * state.lbaSize := Nat.add_mul _ _ _
  unfold Within Inside seekPosition add64 mul64
  rw [blocks]
  generalize c.size * c.count = n
  generalize state.startLba * state.lbaSize = start
  generalize state.sizeInLbas * state.lbaSize = size
  constructor
  · intro inside
    by_cases none : n = 0
    · exact .inl none
    have first := inside 0 (by omega)
    have last := inside (n - 1) (by omega)
    omega
  · intro condition i low
    omega

def accessOf (states : ι → PartitionState) (c : Call ι) : Access ι :=
  ⟨c.partition,c.write,seekPosition (states c.partition) c.offset,c.size * c.count,c.buffer⟩

section
variable {states : ι → PartitionState}

omit [DecidableEq ι] in
theorem runWrites (c : Call ι) (drive : Mem) : (c.run states drive).2 = (accessOf states c).step drive := by
  unfold Call.run Access.step accessOf
  cases c.write with
  | true =>
    rw [if_pos rfl,if_pos rfl,writePartitionDummy]
    split
    · have none : c.size * c.count = 0 := by simpa using ‹c.size = 0 ∨ c.count = 0›
      rw [none,patchNone]
    · rfl
  | false => rfl

omit [DecidableEq ι] in
theorem runAllAfter (calls : List (Call ι)) (drive : Mem) :
    runAll states drive calls = after drive (calls.map (accessOf states)) := by
  induction calls generalizing drive with
  | nil => rfl
  | cons c rest ih =>
    change runAll states (c.run states drive).2 rest = _
    rw [ih,runWrites]
    rfl

theorem ownThrough (i : ι) (calls : List (Call ι)) :
    own i (calls.map (accessOf states)) = (through i calls).map (accessOf states) := List.filter_map

omit [DecidableEq ι] in
theorem readsWithin {c : Call ι} (inside : Inside (states c.partition) c) {m n : Mem}
    (same : ∀ k, Within (states c.partition) k → m k = n k) : (c.run states m).1 = (c.run states n).1 := by
  unfold Call.run
  cases c.write with
  | true => rfl
  | false =>
    simp only [Bool.false_eq_true,if_false,readPartitionDummy]
    split
    · rfl
    · refine patchCongr fun i low => ?_
      exact same _ ((insideIff _ c).mpr inside i low)

omit [DecidableEq ι] in
theorem dividedApart (divided : Divided states) : Apart fun i => Within (states i) := by
  rintro i j differ k ⟨lower,upper⟩ ⟨first,last⟩
  have same := divided.lbaSize j i
  rw [same] at first last
  have positive : 0 < (states i).lbaSize := Nat.pos_of_ne_zero fun zero => by rw [zero,Nat.mul_zero] at upper; omega
  refine divided.blocks i j differ (k / (states i).lbaSize) ?_ ?_ ⟨?_,?_⟩
  · exact (Nat.le_div_iff_mul_le positive).mpr lower
  · exact (Nat.div_lt_iff_lt_mul positive).mpr upper
  · exact (Nat.le_div_iff_mul_le positive).mpr first
  · exact (Nat.div_lt_iff_lt_mul positive).mpr last

theorem isolatedRun (divided : Divided states) (drive : Mem) {calls : List (Call ι)}
    (inside : ∀ c ∈ calls, Inside (states c.partition) c) : Isolated states drive calls := by
  have apart := dividedApart divided
  refine ⟨fun c mem => (insideIff _ c).mpr (inside c mem),?_,?_⟩
  · rintro before c rest rfl j other k here
    have mine := inside c (List.mem_append_right _ List.mem_cons_self)
    have confined : Confined (fun i => Within (states i)) (accessOf states c) := (insideIff _ c).mpr mine
    rw [runWrites]
    exact stepOutside confined _ fun own => apart c.partition j (Ne.symm other) k own here
  · rintro before c rest rfl
    have mine := inside c (List.mem_append_right _ List.mem_cons_self)
    refine readsWithin mine fun k here => ?_
    have confined : ∀ a ∈ before.map (accessOf states), Confined (fun i => Within (states i)) a := by
      intro a mem
      obtain ⟨d,earlier,rfl⟩ := List.mem_map.mp mem
      exact (insideIff _ d).mpr (inside d (List.mem_append_left _ earlier))
    rw [runAllAfter,runAllAfter,← ownThrough]
    exact afterOwn apart confined c.partition (fun _ _ => rfl) k here

/-- The partitions of a drive are isolated from each other over a sequence of calls just if
every call stays in its partition. -/
theorem isolatedIff (divided : Divided states) (drive : Mem) (calls : List (Call ι)) :
    Isolated states drive calls ↔ ∀ c ∈ calls, Inside (states c.partition) c := by
  constructor
  · intro isolated c mem
    exact (insideIff _ c).mp (isolated.inside c mem)
  · exact isolatedRun divided drive

end

def halves (second : Bool) : PartitionState := ⟨0,if second then 1 else 0,1,512,0⟩

theorem halvesDivided : Divided halves := by
  refine ⟨fun _ _ => rfl,fun i j differ b lower upper => ?_⟩
  cases i with
  | false =>
    cases j with
    | false => exact absurd rfl differ
    | true =>
      change b < 0 + 1 at upper
      exact fun both => absurd both.1 (Nat.not_le_of_lt upper)
  | true =>
    cases j with
    | false => exact fun both => absurd both.2 (Nat.not_lt_of_le lower)
    | true => exact absurd rfl differ

theorem halvesIsolated : Isolated halves zeros
    [⟨false,true,1,512,0,fun _ => 1,by decide⟩,⟨true,false,512,1,0,zeros,by decide⟩] :=
  (isolatedIff halvesDivided zeros _).mpr fun c mem => by
    obtain rfl | rfl : c = _ ∨ c = _ := by simpa using mem
    · exact .inr (by decide)
    · exact .inr (by decide)

theorem nextSeen : ¬ ∀ (states : Bool → PartitionState) (drive : Mem) (calls : List (Call Bool)), Divided states →
    Isolated states drive calls := by
  intro all
  have inside := (all halves zeros [⟨false,false,1,1,512,zeros,by decide⟩] halvesDivided).inside _
    List.mem_cons_self 0 (by decide)
  exact absurd inside.2 (by decide)

end Kdrivers.PartitionDummy
