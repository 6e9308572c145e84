import Kdrivers.Ext2Cache

/-! A traversal resolves each block index through the tables it has cached: findBlock is
the cached lookup of the place that the index arithmetic computes, and the loop is a
trail of such lookups. -/
namespace Kdrivers.Ext2Resolve
open Bytes Vfs Ext2State Ext2Traverse Ext2Cache IndexTree

def roots (node : Ext2Inode) : Roots := ⟨node.direct,node.top⟩

def Reads (env : Env) (st : BasicState) (image : Mem) (t i pointer : Nat) : Prop :=
  i < st.blockSize / 4 ∧ ∃ table, Loaded env st image t table ∧ pointer = le32 table (4 * i)

def entryAt (st : BasicState) (image : Mem) (t i : Nat) : Nat := le32 image (addr st t + 4 * i)

def place (bs index : Nat) : Path :=
  let count := bs / 4
  if index < 12 then .direct index
  else
    let singly := index - 12
    let doubly := singly / bs
    let triply := doubly / bs
    if doubly ||| triply = 0 then .single (singly % count)
    else if doubly ≥ count + 1 then
      .triple (pred64 triply % count) (pred64 doubly % count) (singly % count)
    else .double (pred64 doubly % count) (singly % count)

theorem spanFull {env : Env} (full : env.Full) (st : BasicState) (block : Nat) :
    span env st block = st.blockSize := Nat.min_eq_left (full _ _ _)

theorem readsExact {env : Env} (full : env.Full) {st : BasicState} {image : Mem} {t i pointer : Nat}
    (reads : Reads env st image t i pointer) : pointer = entryAt st image t i := by
  obtain ⟨inside,table,loaded,rfl⟩ := reads
  refine le32Congr fun j low => ?_
  have same := loaded (4 * i + j) (by rw [spanFull full]; omega)
  simpa [Nat.add_assoc] using same

section Resolution
variable {σ : Type} {env : Env} {st : BasicState} {node : Ext2Inode} {c : Client σ} {image : Mem}
  {T : Tables} {D : Nat → Prop}

def Meets (env : Env) (st : BasicState) (node : Ext2Inode) (image : Mem) (T : Tables) (D : Nat → Prop)
    (w : Walk σ) (result : Result → Prop) : Flow σ Nat → Prop
  | .next block after => Cached env st node image T after ∧ Same w after ∧ D block ∧
      result (.found block (homes node after))
  | .exit after => Cached env st node image T after ∧ Same w after ∧ (result .stop ∨ ¬ env.Allocates)
  | .fault _ => ¬ env.Allocates ∨ st.blockSize / 4 = 0

theorem meetsAfter {w after : Walk σ} {given result : Result → Prop} {x : Flow σ Nat} (same : Same w after)
    (weaker : ∀ r, given r → result r) (meets : Meets env st node image T D after given x) :
    Meets env st node image T D w result x := by
  cases x with
  | next block last => exact ⟨meets.1,same.trans meets.2.1,meets.2.2.1,weaker _ meets.2.2.2⟩
  | exit last => exact ⟨meets.1,same.trans meets.2.1,meets.2.2.imp (weaker _) id⟩
  | fault f => exact meets

theorem directMeets (set : Setting env st node c image T D) {w : Walk σ} (cached : Cached env st node image T w)
    {i : Nat} (low : i < 12) :
    Meets env st node image T D w (Resolves (roots node) (Reads env st image) (homes node w) (.direct i))
      (directBlock st node c i w) := by
  unfold directBlock
  simp only [loadBlockBarren set.barren]
  by_cases zero : node.direct i = 0
  · rw [if_pos zero]
    exact ⟨cached,⟨rfl,rfl,rfl⟩,.inl (.inl ⟨zero,rfl⟩)⟩
  · rw [if_neg zero]
    exact ⟨cached,⟨rfl,rfl,rfl⟩,set.closed.direct i low zero,.inr ⟨zero,rfl⟩⟩

theorem skipDibpMeets (set : Setting env st node c image T D) {w : Walk σ}
    (cached : Cached env st node image T w) {table : Mem} {t i : Nat} (held : w.table .single = some table)
    (member : T .single t) (loaded : Loaded env st image t table) (inside : i < st.blockSize / 4) :
    Meets env st node image T D w
      (entryOf (Reads env st image) t i fun b r => r = .found b (homes node w)) (skipDibp st c i w) := by
  have read : Reads env st image t i (le32 table (4 * i)) := ⟨inside,table,loaded,rfl⟩
  unfold skipDibp
  simp only [held,loadBlockBarren set.barren]
  by_cases zero : le32 table (4 * i) = 0
  · rw [if_pos zero]
    exact ⟨cached,⟨rfl,rfl,rfl⟩,.inl ⟨_,read,.inl ⟨zero,rfl⟩⟩⟩
  · rw [if_neg zero]
    exact ⟨cached,⟨rfl,rfl,rfl⟩,set.closed.leaf member loaded inside zero,_,read,.inr ⟨zero,rfl⟩⟩

theorem switchMeets (set : Setting env st node c image T D) {w : Walk σ} (cached : Cached env st node image T w)
    {upper lower : Level} (higher : Over upper lower) {above : Mem} {t i : Nat}
    (held : w.table upper = some above) (loaded : Loaded env st image t above) (inside : i < st.blockSize / 4)
    {f : Walk σ → Flow σ Nat} {next : Nat → Result → Prop} (gone : ∀ w, w.table lower = none → f w = .fault .nullPointer)
    (rest : ∀ after table u, Cached env st node image T after → after.table lower = some table →
      T lower u → Loaded env st image u table →
      homes node after = Function.update (homes node w) lower (some u) →
      Meets env st node image T D after (next u) (f after)) :
    Meets env st node image T D w (entryOf (Reads env st image) t i next)
      ((switchTable env st c upper lower i w).bind fun _ w => f w) := by
  have read : Reads env st image t i (le32 above (4 * i)) := ⟨inside,above,loaded,rfl⟩
  obtain ⟨after,same,⟨run,good,nonzero,table,here,member,below,moved⟩ | ⟨run,good,zero⟩ | ⟨run,poor,missing⟩⟩ :=
    switchCases set higher cached held inside
  · rw [run]
    exact meetsAfter same (fun r led => ⟨_,read,.inr ⟨nonzero,led⟩⟩)
      (rest after table _ good here member below moved)
  · rw [run]
    exact ⟨good,same,.inl ⟨_,read,.inl ⟨zero,rfl⟩⟩⟩
  · rw [run]
    have ended : (Flow.next () after).bind (fun _ w => f w) = .fault .nullPointer := gone after missing
    rw [ended]
    exact .inl poor

def Resolved (env : Env) (st : BasicState) (node : Ext2Inode) (image : Mem) (T : Tables) (D : Nat → Prop)
    (w : Walk σ) (q : Path) (x : Flow σ Nat) : Prop :=
  Meets env st node image T D w (Resolves (roots node) (Reads env st image) (homes node w) q) x ∨
  ∃ l after, x = .exit after ∧ Spilled env node l w after ∧
    Resolves (roots node) (Reads env st image) (homes node w) q .spill

theorem topMeets (set : Setting env st node c image T D) {w : Walk σ} (cached : Cached env st node image T w)
    (l : Level) {f : Walk σ → Flow σ Nat} {q : Path} {next : Nat → Result → Prop}
    (shape : Resolves (roots node) (Reads env st image) (homes node w) q =
      topOf (homes node w l) (node.top l) next)
    (rest : ∀ after table t, Cached env st node image T after → after.table l = some table → T l t →
      Loaded env st image t table → homes node after = Function.update (homes node w) l (some t) →
      Meets env st node image T D after (next t) (f after)) :
    Resolved env st node image T D w q ((loadTop env st node c l w).bind fun _ w => f w) := by
  unfold Resolved
  rw [shape]
  obtain ⟨after,table,t,run,good,same,here,member,loaded,moved,led⟩ | ⟨after,run,⟨poor,good,same⟩ | ⟨top,spilled⟩⟩ :=
    topCases set cached l
  · rw [run]
    exact .inl (meetsAfter same (led next) (rest after table t good here member loaded moved))
  · rw [run]
    exact .inl ⟨good,same,.inr poor⟩
  · rw [run]
    refine .inr ⟨l,after,rfl,spilled,?_⟩
    have missing : homes node w l = none := by simp [homes,spilled.2.1]
    rw [missing]
    exact .inl ⟨spilled.1,rfl⟩

theorem skipDibpGone {w : Walk σ} (i : Nat) (missing : w.table .single = none) : skipDibp st c i w = .fault .nullPointer := by
  simp only [skipDibp,missing]

theorem switchGone {w : Walk σ} {upper lower : Level} (i : Nat) (f : Walk σ → Flow σ Nat)
    (missing : w.table upper = none) :
    (switchTable env st c upper lower i w).bind (fun _ w => f w) = .fault .nullPointer := by
  simp only [switchTable,missing,Flow.bind]

theorem doDibpMeets (set : Setting env st node c image T D) {w : Walk σ} (cached : Cached env st node image T w)
    {table : Mem} {t i j : Nat} (held : w.table .double = some table) (loaded : Loaded env st image t table)
    (insideI : i < st.blockSize / 4) (insideJ : j < st.blockSize / 4) :
    Meets env st node image T D w
      (entryOf (Reads env st image) t i fun u => entryOf (Reads env st image) u j fun b r =>
        r = .found b (Function.update (homes node w) .single (some u)))
      ((switchTable env st c .double .single i w).bind fun _ w => skipDibp st c j w) := by
  refine switchMeets set cached .double held loaded insideI (fun _ => skipDibpGone j) ?_
  intro after below u good here member loaded moved
  rw [← moved]
  exact skipDibpMeets set good here member loaded insideJ

theorem singleResolved (set : Setting env st node c image T D) {w : Walk σ}
    (cached : Cached env st node image T w) {i : Nat} (inside : i < st.blockSize / 4) :
    Resolved env st node image T D w (.single i)
      ((loadTop env st node c .single w).bind fun _ w => skipDibp st c i w) := by
  refine topMeets set cached .single rfl ?_
  intro after table t good here member loaded moved
  rw [← moved]
  exact skipDibpMeets set good here member loaded inside

theorem doubleResolved (set : Setting env st node c image T D) {w : Walk σ}
    (cached : Cached env st node image T w) {i j : Nat} (insideI : i < st.blockSize / 4)
    (insideJ : j < st.blockSize / 4) :
    Resolved env st node image T D w (.double i j)
      ((loadTop env st node c .double w).bind fun _ w =>
        (switchTable env st c .double .single i w).bind fun _ w => skipDibp st c j w) := by
  refine topMeets set cached .double rfl ?_
  intro after table t good here member loaded moved
  rw [← moved]
  exact doDibpMeets set good here loaded insideI insideJ

theorem tripleResolved (set : Setting env st node c image T D) {w : Walk σ}
    (cached : Cached env st node image T w) {i j k : Nat} (insideI : i < st.blockSize / 4)
    (insideJ : j < st.blockSize / 4) (insideK : k < st.blockSize / 4) :
    Resolved env st node image T D w (.triple i j k)
      ((loadTop env st node c .triple w).bind fun _ w =>
        (switchTable env st c .triple .double i w).bind fun _ w =>
          (switchTable env st c .double .single j w).bind fun _ w => skipDibp st c k w) := by
  refine topMeets set cached .triple rfl ?_
  intro after table t good here member loaded moved
  rw [← moved]
  refine switchMeets set good .triple here loaded insideI (fun _ => switchGone j _) ?_
  intro last below u good here member loaded moved
  rw [← moved]
  exact doDibpMeets set good here loaded insideJ insideK

/-- findBlock resolves the place of the index through the cached tables, or runs out of
memory, or spills a top table. -/
theorem findBlockResolved (set : Setting env st node c image T D) {w : Walk σ}
    (cached : Cached env st node image T w) (index : Nat) :
    Resolved env st node image T D w (place st.blockSize index) (findBlock env st node c index w) := by
  unfold findBlock place
  dsimp only
  by_cases low : index < 12
  · rw [if_pos low,if_pos low]
    exact .inl (directMeets set cached low)
  rw [if_neg low,if_neg low]
  by_cases none : st.blockSize / 4 = 0
  · rw [if_pos none]
    exact .inl (.inr none)
  rw [if_neg none]
  have inside (n : Nat) : n % (st.blockSize / 4) < st.blockSize / 4 := Nat.mod_lt _ (Nat.pos_of_ne_zero none)
  split
  · exact singleResolved set cached (inside _)
  split
  · exact tripleResolved set cached (inside _) (inside _) (inside _)
  · exact doubleResolved set cached (inside _) (inside _)

theorem findBlockNext (set : Setting env st node c image T D) {w last : Walk σ} (cached : Cached env st node image T w)
    {index block : Nat} (run : findBlock env st node c index w = .next block last) :
    Cached env st node image T last ∧ Same w last ∧ D block ∧
      Resolves (roots node) (Reads env st image) (homes node w) (place st.blockSize index)
        (.found block (homes node last)) := by
  obtain meets | ⟨l,after,ended,_⟩ := findBlockResolved set cached index
  · rwa [run] at meets
  · rw [run] at ended
    cases ended

theorem findBlockExit (set : Setting env st node c image T D) {w last : Walk σ} (cached : Cached env st node image T w)
    {index : Nat} (run : findBlock env st node c index w = .exit last) :
    last.data = w.data ∧ last.traversed = w.traversed := by
  obtain meets | ⟨l,after,ended,spilled,_⟩ := findBlockResolved set cached index
  · rw [run] at meets
    exact meets.2.1.2
  · rw [run] at ended
    cases ended
    obtain ⟨_,_,k,world,_,same⟩ := spilled
    rw [same]
    exact ⟨rfl,rfl⟩

theorem findBlockOnly (set : Setting env st node c image T D) (allocates : env.Allocates) (sized : 4 ≤ st.blockSize)
    {w : Walk σ} (cached : Cached env st node image T w) {index b : Nat} {h : Homes}
    (unique : ∀ r, Resolves (roots node) (Reads env st image) (homes node w) (place st.blockSize index) r →
      r = .found b h) :
    ∃ last, findBlock env st node c index w = .next b last ∧ Cached env st node image T last ∧ Same w last ∧
      homes node last = h := by
  obtain meets | ⟨l,last,_,_,spill⟩ := findBlockResolved set cached index
  · cases found : findBlock env st node c index w with
    | next block last =>
      rw [found] at meets
      cases unique _ meets.2.2.2
      exact ⟨last,rfl,meets.1,meets.2.1,rfl⟩
    | exit last =>
      rw [found] at meets
      obtain stop | poor := meets.2.2
      · cases unique _ stop
      · exact absurd allocates poor
    | fault f =>
      rw [found] at meets
      obtain poor | none := meets
      · exact absurd allocates poor
      · omega
  · cases unique _ spill

theorem writeHomeKeeps (set : Setting env st node c image T D) {w : Walk σ}
    (cached : Cached env st node image T w) (l : Level) {world : World} (same : world.disk = w.world.disk) :
    (writeTable env st world (home node w l) (w.table l)).disk = w.world.disk := by
  cases held : w.table l with
  | none => exact same
  | some table =>
    obtain ⟨_,member,loaded⟩ := cached.held l table held
    have agree := agreeTrans loaded (cached.kept l _ member)
    rw [writeTableKeeps set.stable (same ▸ agree),same]

theorem homeTriple {w : Walk σ} (cached : Cached env st node image T w) : home node w .triple = node.top .triple :=
  if_pos cached.top

/-- Where every table agrees with its block the way out leaves the partition as it is. -/
theorem exitKeeps (set : Setting env st node c image T D) {w : Walk σ} (cached : Cached env st node image T w) :
    (traverseExit env st node w).disk = w.world.disk := by
  unfold traverseExit
  rw [← homeTriple cached]
  exact writeHomeKeeps set cached .single (writeHomeKeeps set cached .double
    (writeHomeKeeps set cached .triple rfl))

theorem startCached (node : Ext2Inode) (world : World) (data : σ) (kept : Kept env st image T world.disk) :
    Cached env st node image T (.start world data) := ⟨kept,nofun,fun _ _ => rfl,rfl⟩

theorem stepFound {offset block : Nat} {w last : Walk σ} (sized : 4 ≤ st.blockSize)
    (found : findBlock env st node c (blockIndex st offset w) w = .next block last) :
    traverseStep env st node c offset w = .next () { last with
      world := (c.visit last.world last.data block last.traversed (blockJank st offset w)).2.1
      data := (c.visit last.world last.data block last.traversed (blockJank st offset w)).2.2
      traversed := add64 last.traversed
        (c.visit last.world last.data block last.traversed (blockJank st offset w)).1 } := by
  rw [traverseStep,if_neg (by omega),found]
  rfl

theorem stepExit {offset : Nat} {w last : Walk σ} (sized : 4 ≤ st.blockSize)
    (ended : findBlock env st node c (blockIndex st offset w) w = .exit last) :
    traverseStep env st node c offset w = .exit last := by
  rw [traverseStep,if_neg (by omega),ended]
  rfl

theorem stepNext {offset : Nat} {w after : Walk σ} (step : traverseStep env st node c offset w = .next () after) :
    st.blockSize ≠ 0 ∧ ∃ block found,
      findBlock env st node c (blockIndex st offset w) w = .next block found ∧
      after = { found with
        world := (c.visit found.world found.data block found.traversed (blockJank st offset w)).2.1
        data := (c.visit found.world found.data block found.traversed (blockJank st offset w)).2.2
        traversed := add64 found.traversed
          (c.visit found.world found.data block found.traversed (blockJank st offset w)).1 } := by
  unfold traverseStep at step
  split at step
  · cases step
  · rename_i sized
    cases found : findBlock env st node c (blockIndex st offset w) w with
    | next block last =>
      rw [found] at step
      cases step
      exact ⟨sized,block,last,rfl,rfl⟩
    | exit last => rw [found] at step; cases step
    | fault f => rw [found] at step; cases step

/-- What every iteration keeps holds of the last walk, which is past the end or the one
at whose index findBlock leaves the loop. -/
theorem traverseLoopRule {P : Walk σ → Prop} {offset size fuel : Nat} {w e : Walk σ}
    (step : ∀ w after, P w → w.traversed < size → traverseStep env st node c offset w = .next () after → P after)
    (start : P w) (ended : traverseLoop env st node c offset size fuel w = .exit e) :
    ∃ last, P last ∧ ((size ≤ last.traversed ∧ e = last) ∨
      (last.traversed < size ∧ findBlock env st node c (blockIndex st offset last) last = .exit e)) := by
  induction fuel generalizing w with
  | zero => cases ended
  | succ fuel ih =>
    unfold traverseLoop at ended
    split at ended
    · rename_i more
      cases run : traverseStep env st node c offset w with
      | next u after =>
        rw [run] at ended
        exact ih (step w after start more run) ended
      | exit after =>
        rw [run] at ended
        cases ended
        unfold traverseStep at run
        split at run
        · cases run
        cases found : findBlock env st node c (blockIndex st offset w) w with
        | next block last => rw [found] at run; cases run
        | exit last =>
          rw [found] at run
          cases run
          exact ⟨w,start,.inr ⟨more,found⟩⟩
        | fault f => rw [found] at run; cases run
      | fault f =>
        rw [run] at ended
        cases ended
    · rename_i done
      cases ended
      exact ⟨_,start,.inl ⟨Nat.le_of_not_lt done,rfl⟩⟩

end Resolution

end Kdrivers.Ext2Resolve
