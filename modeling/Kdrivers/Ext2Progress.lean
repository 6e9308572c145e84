import Kdrivers.Ext2Fresh

/-! Whether a traversal comes to an end when the partition moves fewer bytes than it is asked
to. A turn that moves none is taken again at the same block, with the same tables cached. -/
namespace Kdrivers.Ext2Progress
open Bytes BitFields Vfs Ext2State Ext2Traverse Ext2Cache Ext2Resolve Ext2Transfer Ext2Fresh IndexTree

def Held {σ : Type} (w : Walk σ) : Prop := ∀ l, w.last l ≠ 0 → ∃ table, w.table l = some table

def again {σ : Type} (w : Walk σ) (world : World) (data : σ) (n : Nat) : Walk σ :=
  { w with world := world, data := data, traversed := n }

/- How a stage ends that leaves the tables of rank n on alone: with a block, which it finds
again at once, or at the exit, or without memory. -/
def Turns {σ : Type} (env : Env) (n : Nat) (f : Walk σ → Flow σ Nat) (w : Walk σ) : Prop :=
  (∃ block after, f w = .next block after ∧ block ≠ 0 ∧ block < 2^32 ∧ Held after ∧ after.traversed = w.traversed ∧
    (∀ l, n ≤ l.rank → after.table l = w.table l ∧ after.last l = w.last l) ∧
    ∀ world data t, f (again after world data t) = .next block (again after world data t)) ∨
  (∃ after, f w = .exit after ∧ after.traversed = w.traversed) ∨
  (¬ env.Allocates ∧ f w = .fault .nullPointer)

section Stages
variable {σ : Type} {env : Env} {st : BasicState} {node : Ext2Inode} {c : Client σ}

theorem loadReadTable (env : Env) (st : BasicState) (barren : Barren c) (block : Nat) (out : Option Mem)
    (world : World) (data : σ) :
    ∃ r table after, ext2LoadReadBlock env st c block out world data = (r,table,after,data) ∧
      (table = none → r ≠ 0 ∧ ¬ env.Allocates) := by
  have loaded : ext2LoadBlock st c block data = (block,data) := loadBlockBarren barren block data
  cases out with
  | some buffer =>
    unfold ext2LoadReadBlock
    simp only [loaded]
    by_cases zero : block = 0
    · exact ⟨-3,some buffer,world,by simp [zero],fun gone => absurd gone (Option.some_ne_none _)⟩
    · exact ⟨0,_,_,if_pos zero,fun gone => absurd gone (Option.some_ne_none _)⟩
  | none =>
    cases fresh : env.fresh world.allocs with
    | none =>
      refine ⟨-2,none,(alloc env world).2,by simp [ext2LoadReadBlock,alloc,fresh],fun _ => ⟨by decide,fun all => ?_⟩⟩
      have some := all world.allocs
      rw [fresh] at some
      cases some
    | some buffer =>
      unfold ext2LoadReadBlock
      simp only [alloc,fresh,loaded]
      by_cases zero : block = 0
      · exact ⟨-3,some buffer,{ world with allocs := world.allocs + 1 },by simp [zero],
          fun gone => absurd gone (Option.some_ne_none _)⟩
      · exact ⟨0,_,_,if_pos zero,fun gone => absurd gone (Option.some_ne_none _)⟩

theorem heldUpdate {w : Walk σ} (held : Held w) (l : Level) (table : Mem) (world : World) (data : σ) (block : Nat) :
    Held { w with
      world := world
      data := data
      table := Function.update w.table l (some table)
      last := Function.update w.last l block } := by
  intro m some
  by_cases here : m = l
  · cases here
    exact ⟨table,Function.update_self _ _ _⟩
  · simp only [Function.update_of_ne here] at some ⊢
    exact held m some

theorem skipDibpTurns (barren : Barren c) (i : Nat) {w : Walk σ} (held : Held w) {sibp : Mem}
    (there : w.table .single = some sibp) : Turns env 1 (skipDibp st c i) w := by
  by_cases zero : le32 sibp (4 * i) = 0
  · exact .inr (.inl ⟨w,by simp [skipDibp,there,loadBlockBarren barren,zero],rfl⟩)
  · have run (world : World) (data : σ) (n : Nat) :
        skipDibp st c i (again w world data n) = .next (le32 sibp (4 * i)) (again w world data n) := by
      simp [skipDibp,again,there,loadBlockBarren barren,zero]
    exact .inl ⟨_,w,run w.world w.data w.traversed,zero,le32Lt _ _,held,rfl,fun _ _ => ⟨rfl,rfl⟩,run⟩

theorem directTurns (barren : Barren c) (i : Nat) {w : Walk σ} (held : Held w) : Turns env 4 (directBlock st node c i) w := by
  by_cases zero : node.direct i = 0
  · exact .inr (.inl ⟨w,by simp [directBlock,loadBlockBarren barren,zero],rfl⟩)
  · have run (world : World) (data : σ) (n : Nat) :
        directBlock st node c i (again w world data n) = .next (node.direct i) (again w world data n) := by
      simp [directBlock,loadBlockBarren barren,zero]
    exact .inl ⟨_,w,run w.world w.data w.traversed,zero,directLt node i,held,rfl,fun _ _ => ⟨rfl,rfl⟩,run⟩

theorem bindNext {x : Flow σ Unit} {v : Walk σ} (run : x = .next () v) (f : Walk σ → Flow σ Nat) :
    x.bind (fun _ w => f w) = f v := by
  rw [run]
  rfl

theorem bindExit {x : Flow σ Unit} {v : Walk σ} (run : x = .exit v) (f : Walk σ → Flow σ Nat) :
    x.bind (fun _ w => f w) = .exit v := by
  rw [run]
  rfl

theorem overRank {upper lower : Level} (higher : Over upper lower) : upper.rank = lower.rank + 1 := by
  cases higher <;> rfl

theorem turnsAfter {k n : Nat} (le : k ≤ n) {x : Walk σ → Flow σ Unit} {f : Walk σ → Flow σ Nat} {w v : Walk σ}
    (run : x w = .next () v) (count : v.traversed = w.traversed)
    (frame : ∀ l, n ≤ l.rank → v.table l = w.table l ∧ v.last l = w.last l)
    (stays : ∀ u : Walk σ, (∀ l, k ≤ l.rank → u.table l = v.table l ∧ u.last l = v.last l) → x u = .next () u)
    (rest : Turns env k f v) : Turns env n (fun w => (x w).bind fun _ w => f w) w := by
  obtain ⟨block,after,found,some,low,next,same,kept,steady⟩ | ⟨after,ended,same⟩ | ⟨poor,broken⟩ := rest
  · refine .inl ⟨block,after,(bindNext run f).trans found,some,low,next,same.trans count,fun l reach => ?_,
      fun world data t => ?_⟩
    · exact ⟨(kept l (le.trans reach)).1.trans (frame l reach).1,(kept l (le.trans reach)).2.trans (frame l reach).2⟩
    · exact (bindNext (stays (again after world data t) kept) f).trans (steady world data t)
  · exact .inr (.inl ⟨after,(bindNext run f).trans ended,same.trans count⟩)
  · exact .inr (.inr ⟨poor,(bindNext run f).trans broken⟩)

theorem switchTurns (barren : Barren c) {upper lower : Level} (higher : Over upper lower) (i : Nat)
    {f : Walk σ → Flow σ Nat} (gone : ∀ w, w.table lower = none → f w = .fault .nullPointer)
    (rest : ∀ w table, Held w → w.table lower = some table → Turns env lower.rank f w) {w : Walk σ} (held : Held w)
    {above : Mem} (there : w.table upper = some above) :
    Turns env upper.rank (fun w => (switchTable env st c upper lower i w).bind fun _ w => f w) w := by
  have rank := overRank higher
  have apart : upper ≠ lower := by rintro rfl; omega
  by_cases zero : le32 above (4 * i) = 0
  · exact .inr (.inl ⟨w,by simp [switchTable,there,loadBlockBarren barren,zero,Flow.bind],rfl⟩)
  -- once at the entry's table, the switch is none
  have stays {v : Walk σ} (upperTable : v.table upper = some above) (last : v.last lower = le32 above (4 * i)) (u : Walk σ)
      (kept : ∀ l, lower.rank ≤ l.rank → u.table l = v.table l ∧ u.last l = v.last l) :
      switchTable env st c upper lower i u = .next () u := by
    simp [switchTable,(kept upper (by omega)).1.trans upperTable,loadBlockBarren barren,zero,
      (kept lower le_rfl).2.trans last]
  by_cases same : w.last lower = le32 above (4 * i)
  · obtain ⟨table,lowerTable⟩ := held lower (by rw [same]; exact zero)
    have stay := stays there same
    exact turnsAfter (by omega) (stay w fun _ _ => ⟨rfl,rfl⟩) rfl (fun _ _ => ⟨rfl,rfl⟩) stay (rest w table held lowerTable)
  · obtain ⟨r,table,world,run,missing⟩ := loadReadTable env st barren (le32 above (4 * i)) (w.table lower)
      (if w.last lower ≠ 0 then writeTable env st w.world (w.last lower) (w.table lower) else w.world) w.data
    have step : switchTable env st c upper lower i w = .next () { w with
        world := world
        table := Function.update w.table lower table
        last := Function.update w.last lower (le32 above (4 * i)) } := by
      simp only [switchTable,there,loadBlockBarren barren,if_neg zero,if_neg (Ne.symm same),run]
    cases table with
    | none =>
      exact .inr (.inr ⟨(missing rfl).2,(bindNext step f).trans (gone _ (Function.update_self _ _ _))⟩)
    | some table =>
      have now := heldUpdate held lower table world w.data (le32 above (4 * i))
      refine turnsAfter (by omega) step rfl (fun l reach => ?_)
        (stays ((Function.update_of_ne apart _ _).trans there) (Function.update_self _ _ _))
        (rest _ table now (Function.update_self _ _ _))
      have other : l ≠ lower := by rintro rfl; omega
      exact ⟨Function.update_of_ne other _ _,Function.update_of_ne other _ _⟩

theorem topTurns (barren : Barren c) (l : Level) {f : Walk σ → Flow σ Nat}
    (rest : ∀ w table, Held w → w.table l = some table → Turns env l.rank f w) {w : Walk σ} (held : Held w) :
    Turns env 4 (fun w => (loadTop env st node c l w).bind fun _ w => f w) w := by
  have high : l.rank < 4 := by cases l <;> decide
  have whole {v : Walk σ} {table : Mem} (run : loadTop env st node c l w = .next () v) (now : Held v)
      (count : v.traversed = w.traversed) (there : v.table l = some table) :
      Turns env 4 (fun w => (loadTop env st node c l w).bind fun _ w => f w) w := by
    refine turnsAfter high.le run count (fun m reach => absurd reach (by cases m <;> decide)) (fun u kept => ?_)
      (rest v table now there)
    simp [loadTop,(kept l le_rfl).1.trans there]
  cases there : w.table l with
  | some table => exact whole (by simp [loadTop,there]) held rfl there
  | none =>
    obtain ⟨r,table,world,run,missing⟩ := loadReadTable env st barren (node.top l) none w.world w.data
    have step : loadTop env st node c l w = if r = 0 then .next () { w with
        world := world
        table := Function.update w.table l table } else .exit { w with
        world := world
        table := Function.update w.table l table } := by
      simp only [loadTop,there,run]
    by_cases good : r = 0
    · rw [if_pos good] at step
      cases table with
      | none => exact absurd good (missing rfl).1
      | some table =>
        have now := heldUpdate held l table world w.data (w.last l)
        rw [Function.update_eq_self] at now
        exact whole step now rfl (Function.update_self _ _ _)
    · rw [if_neg good] at step
      exact .inr (.inl ⟨_,bindExit step f,rfl⟩)

theorem doDibpTurns (barren : Barren c) (i j : Nat) {w : Walk σ} (held : Held w) {above : Mem}
    (there : w.table .double = some above) :
    Turns env 2 (fun w => (switchTable env st c .double .single i w).bind fun _ w => skipDibp st c j w) w :=
  switchTurns barren .double i (fun _ gone => by simp only [skipDibp,gone])
    (fun w table held there => skipDibpTurns barren j held there) held there

/-- findBlock finds its block again at once, or leaves, or has no memory. -/
theorem findTurns (env : Env) (node : Ext2Inode) (barren : Barren c) (sized : 4 ≤ st.blockSize) (index : Nat)
    {w : Walk σ} (held : Held w) :
    Turns env 4 (findBlock env st node c index) w := by
  unfold findBlock
  dsimp only
  by_cases low : index < 12
  · simp only [if_pos low]
    exact directTurns barren index held
  simp only [if_neg low,if_neg (show ¬ st.blockSize / 4 = 0 by omega)]
  split
  · exact topTurns barren .single (fun w table held there => skipDibpTurns barren _ held there) held
  split
  · refine topTurns barren .triple (fun w table held there => ?_) held
    exact switchTurns barren .triple _ (fun _ gone => by simp only [switchTable,gone,Flow.bind])
      (fun w table held there => doDibpTurns barren _ _ held there) held there
  · exact topTurns barren .double (fun w table held there => doDibpTurns barren _ _ held there) held

end Stages

structure Moves {σ : Type} (env : Env) (st : BasicState) (size : Nat) (c : Client σ) : Prop where
  count : ∀ world data block t j, (c.visit world data block t j).1 = min (min (st.blockSize - j) (size - t))
    (env.grant world.calls (add64 (mul64 block st.blockSize) j) (min (st.blockSize - j) (size - t)))
  calls : ∀ world data block t j, (c.visit world data block t j).2.1.calls = world.calls + 1

theorem readMoves (env : Env) (st : BasicState) (size : Nat) : Moves env st size (readClient env st size) :=
  ⟨fun _ _ _ _ _ => rfl,fun _ _ _ _ _ => rfl⟩

theorem writeMoves (env : Env) (st : BasicState) (size : Nat) : Moves env st size (writeClient env st size) :=
  ⟨fun _ _ _ _ _ => rfl,fun _ _ _ _ _ => rfl⟩

theorem barrenWrite (env : Env) (st : BasicState) (size : Nat) : Barren (writeClient env st size) := by
  intro f made data inode
  cases made
  rfl

def Progress (env : Env) (bs : Nat) : Prop := ∀ k block j n, 0 < block → block < 2^32 → j < bs → 0 < n → n ≤ bs - j →
  ∃ i, 0 < env.grant (k + i) (add64 (mul64 block bs) j) n

section Loop
variable {σ : Type} {env : Env} {st : BasicState} {node : Ext2Inode} {c : Client σ} {offset size : Nat}

def Ended (env : Env) (st : BasicState) (node : Ext2Inode) (c : Client σ) (offset size : Nat) (w : Walk σ) : Prop :=
  ∃ fuel, (∃ e, traverseLoop env st node c offset size fuel w = .exit e ∧ e.traversed ≤ size) ∨
    (¬ env.Allocates ∧ traverseLoop env st node c offset size fuel w = .fault .nullPointer)

theorem endedStep {w after : Walk σ} (more : w.traversed < size) (step : traverseStep env st node c offset w = .next () after)
    (ended : Ended env st node c offset size after) : Ended env st node c offset size w := by
  obtain ⟨fuel,result⟩ := ended
  have turn : traverseLoop env st node c offset size (fuel + 1) w = traverseLoop env st node c offset size fuel after := by
    rw [traverseLoop,if_pos more,step]
    rfl
  exact ⟨fuel + 1,by rwa [turn]⟩

theorem visitStep (moves : Moves env st size c) (sized : 4 ≤ st.blockSize) (short : size < 2^64) {w found : Walk σ}
    {block : Nat} (more : w.traversed < size) (count : found.traversed = w.traversed)
    (run : findBlock env st node c (blockIndex st offset w) w = .next block found) :
    ∃ world data, traverseStep env st node c offset w = .next () (again found world data (w.traversed +
        min (min (st.blockSize - blockJank st offset w) (size - w.traversed)) (env.grant found.world.calls
          (add64 (mul64 block st.blockSize) (blockJank st offset w))
          (min (st.blockSize - blockJank st offset w) (size - w.traversed))))) ∧
      world.calls = found.world.calls + 1 := by
  refine ⟨(c.visit found.world found.data block found.traversed (blockJank st offset w)).2.1,
    (c.visit found.world found.data block found.traversed (blockJank st offset w)).2.2,?_,moves.calls _ _ _ _ _⟩
  have amount := moves.count found.world found.data block found.traversed (blockJank st offset w)
  rw [count] at amount
  have moved := add64Eq (show w.traversed + (c.visit found.world found.data block w.traversed (blockJank st offset w)).1 <
    2^64 by omega)
  rw [stepFound sized run,count,← amount,← moved]
  rfl

def left (st : BasicState) (offset size : Nat) (w : Walk σ) : Nat :=
  min (st.blockSize - blockJank st offset w) (size - w.traversed)

theorem jankBelow (offset : Nat) (sized : 4 ≤ st.blockSize) (w : Walk σ) : blockJank st offset w < st.blockSize := by
  unfold blockJank blockIndex
  rw [Nat.mul_comm,← Nat.mod_eq_sub_mul_div]
  exact Nat.mod_lt _ (by omega)

theorem refusedEnds (moves : Moves env st size c) (sized : 4 ≤ st.blockSize) (short : size < 2^64) {block : Nat} {u : Walk σ}
    (held : Held u) (more : u.traversed < size)
    (later : ∀ v : Walk σ, Held v → u.traversed < v.traversed → v.traversed ≤ size → Ended env st node c offset size v)
    (steady : ∀ world data n, findBlock env st node c (blockIndex st offset u) (again u world data n) =
      .next block (again u world data n)) {i : Nat}
    (granted : 0 < env.grant (u.world.calls + i) (add64 (mul64 block st.blockSize) (blockJank st offset u))
      (left st offset size u)) :
    Ended env st node c offset size u := by
  have low := jankBelow offset sized u
  induction i generalizing u with
  | zero =>
    obtain ⟨world,data,step,_⟩ := visitStep moves sized short more rfl (steady u.world u.data u.traversed)
    refine endedStep more step (later _ held ?_ ?_)
    · change u.traversed < u.traversed + _
      unfold left at granted
      rw [Nat.add_zero] at granted
      omega
    · change u.traversed + _ ≤ size
      omega
  | succ i ih =>
    obtain ⟨world,data,step,calls⟩ := visitStep moves sized short more rfl (steady u.world u.data u.traversed)
    refine endedStep more step ?_
    by_cases none : min (min (st.blockSize - blockJank st offset u) (size - u.traversed)) (env.grant u.world.calls
        (add64 (mul64 block st.blockSize) (blockJank st offset u))
        (min (st.blockSize - blockJank st offset u) (size - u.traversed))) = 0
    · rw [none,Nat.add_zero]
      have next : u.world.calls + (i + 1) = world.calls + i := by rw [calls]; omega
      rw [next] at granted
      exact ih (u := again u world data u.traversed) held more later steady granted low
    · refine later _ held ?_ ?_
      · change u.traversed < u.traversed + _
        omega
      · change u.traversed + _ ≤ size
        omega

/-- Where no transfer is refused for ever the loop ends. -/
theorem loopEnds (node : Ext2Inode) (offset : Nat) (progress : Progress env st.blockSize) (barren : Barren c)
    (moves : Moves env st size c) (sized : 4 ≤ st.blockSize) (short : size < 2^64) {w : Walk σ} (held : Held w) (bound : w.traversed ≤ size) :
    Ended env st node c offset size w := by
  induction total : size - w.traversed using Nat.strong_induction_on generalizing w with
  | _ m ih =>
    by_cases more : w.traversed < size
    · have low := jankBelow offset sized w
      obtain ⟨block,found,run,pos,small,next,count,_,steady⟩ | ⟨e,run,count⟩ | ⟨poor,run⟩ :=
        findTurns env node barren sized (blockIndex st offset w) held
      · obtain ⟨world,data,step,_⟩ := visitStep moves sized short more count run
        refine endedStep more step ?_
        by_cases none : min (min (st.blockSize - blockJank st offset w) (size - w.traversed)) (env.grant found.world.calls
            (add64 (mul64 block st.blockSize) (blockJank st offset w))
            (min (st.blockSize - blockJank st offset w) (size - w.traversed))) = 0
        · rw [none,Nat.add_zero]
          obtain ⟨i,granted⟩ := progress world.calls block (blockJank st offset w) (left st offset size w)
            (Nat.pos_of_ne_zero pos) small low (by unfold left; omega) (Nat.min_le_left _ _)
          refine refusedEnds moves sized short (u := again found world data w.traversed) next more (fun v now up within => ?_)
            (fun world data n => steady world data n) granted
          exact ih _ (by have := up; change w.traversed < _ at this; omega) now within rfl
        · refine ih _ ?_ next ?_ rfl
          · change size - (w.traversed + _) < m
            omega
          · change w.traversed + _ ≤ size
            omega
      · refine ⟨1,.inl ⟨e,?_,by omega⟩⟩
        rw [traverseLoop,if_pos more,stepExit sized run]
        rfl
      · refine ⟨1,.inr ⟨poor,?_⟩⟩
        rw [traverseLoop,if_pos more,traverseStep,if_neg (by omega),run]
        rfl
    · exact ⟨1,.inl ⟨w,by rw [traverseLoop,if_neg more],bound⟩⟩

theorem heldStart (world : World) (data : σ) : Held (.start world data) := fun _ some => absurd rfl some

end Loop

def Comes {α : Type} (env : Env) (size : Nat) (run : Nat → Outcome α) (count : α → Nat) : Prop :=
  ∃ fuel, (∃ a, run fuel = .ret a ∧ count a ≤ size) ∨ (¬ env.Allocates ∧ run fuel = .fault .nullPointer)

structure Ends (env : Env) (bs : Nat) : Prop where
  read : ∀ (st : BasicState) (node : Ext2Inode) (buffer : Option Mem) (offset size : Nat) (world : World),
    st.blockSize = bs → st.node = some node → offset < 2^64 → size < 2^64 →
    Comes env size (fun fuel => ext2ReadInodeData env fuel st buffer offset size world) fun a => a.1
  write : ∀ (m : Masked) (state : NodeState) (node : Ext2Inode) (buffer : Option Mem) (offset size : Nat) (world : World),
    state.basic.blockSize = bs → state.basic.node = some node → offset < 2^64 → size < 2^64 →
    Comes env size (fun fuel => ext2WriteInodeData m env fuel state buffer offset size world) fun a => a.1

theorem readComes {env : Env} {st : BasicState} {node : Ext2Inode} (progress : Progress env st.blockSize)
    (sized : 4 ≤ st.blockSize) (held : st.node = some node) (buffer : Option Mem) (offset : Nat) {size : Nat}
    (short : size < 2^64) (world : World) :
    Comes env size (fun fuel => ext2ReadInodeData env fuel st buffer offset size world) fun a => a.1 := by
  cases buffer with
  | none => exact ⟨0,.inl ⟨_,rfl,Nat.zero_le size⟩⟩
  | some buffer =>
    by_cases empty : size = 0
    · exact ⟨0,.inl ⟨(0,world,some buffer),if_pos empty,Nat.zero_le size⟩⟩
    · obtain ⟨fuel,⟨e,run,within⟩ | ⟨poor,run⟩⟩ := loopEnds node offset progress
        (Ext2ReadOnly.barrenRead env st size) (readMoves env st size) sized short (heldStart world buffer) (Nat.zero_le size)
      · refine ⟨fuel,.inl ⟨(e.traversed,traverseExit env st node e,some e.data),?_,within⟩⟩
        change ext2ReadInodeData env fuel st (some buffer) offset size world = _
        rw [Ext2ReadOnly.readInodeDataEq held fuel buffer offset empty world,run]
      · refine ⟨fuel,.inr ⟨poor,?_⟩⟩
        change ext2ReadInodeData env fuel st (some buffer) offset size world = _
        rw [Ext2ReadOnly.readInodeDataEq held fuel buffer offset empty world,run]

theorem writeComes (m : Masked) {env : Env} {state : NodeState} {node : Ext2Inode}
    (progress : Progress env state.basic.blockSize) (sized : 4 ≤ state.basic.blockSize)
    (held : state.basic.node = some node) (buffer : Option Mem) (offset : Nat) {size : Nat}
    (short : size < 2^64) (world : World) :
    Comes env size (fun fuel => ext2WriteInodeData m env fuel state buffer offset size world) fun a => a.1 := by
  cases buffer with
  | none => exact ⟨0,.inl ⟨_,rfl,Nat.zero_le size⟩⟩
  | some buffer =>
    by_cases refused : size = 0 ∨ m.read state.basic.attributes 1 1 = 0
    · exact ⟨0,.inl ⟨(0,world),if_pos refused,Nat.zero_le size⟩⟩
    · obtain ⟨some,enabled⟩ := not_or.mp refused
      obtain ⟨fuel,⟨e,run,within⟩ | ⟨poor,run⟩⟩ := loopEnds node offset progress
        (barrenWrite env state.basic size) (writeMoves env state.basic size) sized short (heldStart world buffer)
        (Nat.zero_le size)
      · refine ⟨fuel,.inl ⟨(e.traversed,traverseExit env state.basic node e),?_,within⟩⟩
        change ext2WriteInodeData m env fuel state (.some buffer) offset size world = _
        rw [writeInodeDataEq m held enabled fuel buffer offset some world,run]
      · refine ⟨fuel,.inr ⟨poor,?_⟩⟩
        change ext2WriteInodeData m env fuel state (.some buffer) offset size world = _
        rw [writeInodeDataEq m held enabled fuel buffer offset some world,run]

def oneBlock (block : Nat) : Ext2Inode := ⟨0,0,fun _ => UInt32.ofNat block,0,0,0⟩

def oneState (bs block : Nat) : BasicState := ⟨some (oneBlock block),0,bs,1⟩

theorem refusedRuns {env : Env} {bs k block j n : Nat} (pos : 0 < block) (low : block < 2^32) (inside : j < bs)
    (nonzero : 0 < n) (sized : 4 ≤ bs) (fits : bs < 2^64) (short : n ≤ bs - j)
    (refused : ∀ i, env.grant (k + i) (add64 (mul64 block bs) j) n = 0) (fuel : Nat) (world : World)
    (calls : world.calls = k) (buffer : Mem) : ∃ w, traverseLoop env (oneState bs block) (oneBlock block)
      (readClient env (oneState bs block) n) j n fuel (.start world buffer) = .next () w := by
  induction fuel generalizing k world buffer with
  | zero => exact ⟨_,rfl⟩
  | succ fuel ih =>
    have direct : (oneBlock block).direct 0 = block := by
      change (UInt32.ofNat block).toNat = block
      rw [UInt32.toNat_ofNat']
      exact Nat.mod_eq_of_lt low
    have index : blockIndex (oneState bs block) j (.start world buffer) = 0 := by
      change add64 0 j / bs = 0
      rw [add64Eq (by omega),Nat.zero_add]
      exact Nat.div_eq_of_lt inside
    have jank : blockJank (oneState bs block) j (.start world buffer) = j := by
      rw [blockJank,index]
      change add64 0 j - 0 * bs = j
      rw [add64Eq (by omega),Nat.zero_add,Nat.zero_mul,Nat.sub_zero]
    have run : findBlock env (oneState bs block) (oneBlock block) (readClient env (oneState bs block) n)
        (blockIndex (oneState bs block) j (.start world buffer)) (.start world buffer) = .next block (.start world buffer) := by
      rw [index,findBlock]
      dsimp only
      rw [if_pos (by decide),directBlock,direct,loadBlockBarren (Ext2ReadOnly.barrenRead _ _ _)]
      exact if_neg (by omega)
    obtain ⟨after,data,step,count⟩ := visitStep (readMoves env (oneState bs block) n) sized (by omega) nonzero rfl run
    have all : min ((oneState bs block).blockSize - j) (n - (Walk.start world buffer).traversed) = n := Nat.min_eq_right short
    have none := refused 0
    rw [Nat.add_zero,← calls] at none
    change env.grant (Walk.start world buffer).world.calls (add64 (mul64 block (oneState bs block).blockSize) j) n = 0 at none
    rw [jank,all,none,Nat.min_zero,Nat.add_zero] at step
    obtain ⟨w,rest⟩ := ih (fun i => by rw [Nat.add_assoc]; exact refused (1 + i)) after
      (count.trans (congrArg (· + 1) calls)) data
    refine ⟨w,?_⟩
    have more : (Walk.start world buffer).traversed < n := nonzero
    rw [traverseLoop,if_pos more,step]
    exact rest

theorem refusedNever {env : Env} {bs : Nat} (block : BlockSize bs) (ends : Ends env bs) : Progress env bs := by
  obtain ⟨large,fits,_⟩ := block.bounds
  intro k b j n pos low inside nonzero short
  by_contra none
  have refused (i : Nat) : env.grant (k + i) (add64 (mul64 b bs) j) n = 0 :=
    Nat.eq_zero_of_not_pos fun granted => none ⟨i,granted⟩
  obtain ⟨fuel,result⟩ := ends.read (oneState bs b) (oneBlock b) (some zeros) j n ⟨zeros,0,k,0⟩ rfl rfl (by omega) (by omega)
  obtain ⟨w,run⟩ := refusedRuns pos low inside nonzero (by omega) fits short refused fuel ⟨zeros,0,k,0⟩ rfl zeros
  have running : ext2ReadInodeData env fuel (oneState bs b) (some zeros) j n ⟨zeros,0,k,0⟩ = .running := by
    rw [Ext2ReadOnly.readInodeDataEq rfl fuel zeros j (by omega) _,run]
  rcases result with ⟨a,same,_⟩ | ⟨_,same⟩
  · cases running.symm.trans same
  · cases running.symm.trans same

/-- Every read and write of an inode's data comes to an end with no more than its size exactly
when the partition refuses no transfer within a block for ever. -/
theorem endsIff {env : Env} {bs : Nat} (block : BlockSize bs) : Ends env bs ↔ Progress env bs := by
  obtain ⟨large,_,_⟩ := block.bounds
  constructor
  · exact refusedNever block
  · rintro progress
    constructor
    · rintro st node buffer offset size world rfl held _ short
      exact readComes progress (by omega) held buffer offset short world
    · rintro m state node buffer offset size world rfl held _ short
      exact writeComes m progress (by omega) held buffer offset short world

def slowEnv : Env := ⟨fun k _ _ => k % 2,fun _ => some zeros⟩

theorem slowEnds : Ends slowEnv 1024 := by
  refine (endsIff ⟨0,by decide,rfl⟩).mpr fun k _ _ _ _ _ _ _ _ => ⟨(k + 1) % 2,?_⟩
  change 0 < (k + (k + 1) % 2) % 2
  omega

def endedEnv : Env := ⟨fun _ _ _ => 0,fun _ => some zeros⟩

theorem endedRuns : ¬ ∀ (env : Env) (bs : Nat), BlockSize bs → Ends env bs := by
  intro ends
  obtain ⟨i,granted⟩ := refusedNever ⟨0,by decide,rfl⟩ (ends endedEnv 1024 ⟨0,by decide,rfl⟩) 0 1 0 1 (by decide) (by decide)
    (by decide) (by decide) (by decide)
  exact absurd granted (Nat.lt_irrefl 0)

end Kdrivers.Ext2Progress
