import Kdrivers.Ext2File
import Kdrivers.Ext2Progress
import Kdrivers.Ext2WriteRead

/-! The end of a file and its holes. A read never looks at the size that stat reports: it
ends at the first block that is not there. -/
namespace Kdrivers.Ext2Size
open Bytes Vfs IndexTree Ext2State Ext2Traverse Ext2ReadOnly Ext2Transfer Ext2Fresh Ext2Progress Ext2File
open Ext2WriteRead (layoutBlock wholeEnv)

def due (s offset n : Nat) : Nat := min n (s - offset)

/- A read returns what there is up to the size, delivers nothing past it, and zeros where
the layout has no block. -/
def ReadsSize (env : Env) (state : NodeState) (node : Ext2Inode) (s size count offset : Nat) (world : World)
    (buffer : Mem) : Prop := ∃ fuel after r,
  (∀ k, readExt2File env (fuel + k) state (some buffer) size count offset world =
    .ret (due s offset (mul64 size count),after,some r)) ∧
  (∀ i, due s offset (mul64 size count) ≤ i → r i = buffer i) ∧
  ∀ i < due s offset (mul64 size count),
    layoutBlock state.basic node world.disk ((offset + i) / state.basic.blockSize) = none → r i = 0

structure Covered (st : BasicState) (node : Ext2Inode) (image : Mem) (s offset n : Nat) : Prop where
  mapped : ∀ x, offset ≤ x → x < offset + n → x < s → ∃ a, address st node image x = some a
  ends : s < offset + n → address st node image (max offset s) = none
  holes : ∀ x a, offset ≤ x → x < offset + n → x < s → layoutBlock st node image (x / st.blockSize) = none →
    address st node image x = some a → image a = 0

section Reads
variable {env : Env} {st : BasicState} {node : Ext2Inode} {offset size limit : Nat}

theorem readReaches (full : env.Full) (allocates : env.Allocates) (block : BlockSize st.blockSize)
    (held : st.node = some node) (climbs : Climbs st.blockSize offset limit) (within : limit ≤ size) (some : 0 < size)
    (short : size < 2^64) (world : World) (buffer : Mem) :
    ∃ n r after, Returns env st offset size world buffer n after r ∧
      (Fetched st node world.disk offset size buffer n r ∨
        (limit < size ∧ limit ≤ n ∧ ∀ i < limit, ∃ a, address st node world.disk (add64 i offset) = .some a)) := by
  obtain ⟨large,_,_⟩ := block.bounds
  by_cases whole : limit = size
  · subst whole
    obtain ⟨n,r,after,returns,fetched,_⟩ := readFetched full allocates block held climbs short world buffer
    exact ⟨n,r,after,returns,.inl fetched⟩
  obtain ⟨fuel,⟨e,run,_,fetched⟩ | ⟨u,run,reached,bound,_,reading,part⟩⟩ := readyReaches full allocates block climbs
    within short (readyStart world buffer) (readingStart world buffer offset size)
    (partlyStart _ _ _ _ buffer) (Nat.zero_le size)
  · refine ⟨e.traversed,e.data,traverseExit env st node e,⟨fuel,fun k => ?_⟩,.inl fetched⟩
    rw [readInodeDataEq held (fuel + k) buffer offset some.ne' world,loopMore run k]
  · have progress : Progress env st.blockSize := fun k block j n _ _ _ pos _ => ⟨0,Nat.lt_of_lt_of_le pos (full _ _ _)⟩
    obtain ⟨more,⟨e,last,_⟩ | ⟨poor,_⟩⟩ := loopEnds node offset progress (barrenRead env st size)
      (readMoves env st size) (by omega) short (heldStart world buffer) (Nat.zero_le size)
    · have far := loopMore last fuel
      rw [Nat.add_comm,run] at far
      obtain ⟨up,_⟩ := readingLast full short reading bound far
      refine ⟨e.traversed,e.data,traverseExit env st node e,⟨more,fun k => ?_⟩,
        .inr ⟨Nat.lt_of_le_of_ne within whole,reached.trans up,fun i low => ?_⟩⟩
      · rw [readInodeDataEq held (more + k) buffer offset some.ne' world,loopMore last k]
      · obtain ⟨a,here,_⟩ := part.got i (Nat.lt_of_lt_of_le low reached)
        exact ⟨a,here⟩
    · exact absurd allocates poor

theorem returnsUnique {n m : Nat} {world a b : World} {buffer r q : Mem}
    (left : Returns env st offset size world buffer n a r) (right : Returns env st offset size world buffer m b q) :
    n = m ∧ r = q := by
  obtain ⟨f,left⟩ := left
  obtain ⟨g,right⟩ := right
  have first := left g
  have second := right f
  rw [Nat.add_comm] at second
  cases first.symm.trans second
  exact ⟨rfl,rfl⟩

end Reads

theorem dueClimbs {bs s offset n : Nat} (block : BlockSize bs) (low : s < 2^32) (below : offset < 2^64) (short : n < 2^64) :
    Climbs bs offset (min n (due s offset n + 1)) := by
  unfold due
  exact nearClimbs block below (by omega) (.inl (by omega))

section Fetching
variable {st : BasicState} {node : Ext2Inode} {image : Mem} {s offset n : Nat} {buffer r : Mem}

theorem dueStraight (low : s < 2^32) (below : offset < 2^64) {i : Nat} (inside : i ≤ due s offset n) :
    add64 i offset = offset + i := by
  unfold due at inside
  rw [add64Eq (by omega),Nat.add_comm]

theorem coveredDue (low : s < 2^32) (below : offset < 2^64) (covered : Covered st node image s offset n) {m : Nat}
    (fetched : Fetched st node image offset n buffer m r) : m = due s offset n := by
  have bound := fetched.bound
  refine Nat.le_antisymm (Nat.le_of_not_lt fun more => ?_) (Nat.le_of_not_lt fun less => ?_)
  · obtain ⟨a,here,_⟩ := fetched.got _ more
    rw [dueStraight low below le_rfl] at here
    have past : s < offset + n := by unfold due at more; omega
    have last : max offset s = offset + due s offset n := by unfold due; omega
    rw [← last,covered.ends past] at here
    cases here
  · have inside : offset + m < offset + n ∧ offset + m < s := by unfold due at less; omega
    obtain ⟨a,here⟩ := covered.mapped (offset + m) (Nat.le_add_right _ _) inside.1 inside.2
    have missing := fetched.short (by omega)
    rw [dueStraight low below less.le,here] at missing
    cases missing

theorem fetchedCovered (low : s < 2^32) (below : offset < 2^64) (pos : 0 < n)
    (fetched : Fetched st node image offset n buffer (due s offset n) r) : Covered st node image s offset n ↔
      ∀ i < due s offset n, layoutBlock st node image ((offset + i) / st.blockSize) = none → r i = 0 := by
  have got {i : Nat} (inside : i < due s offset n) : ∃ a, address st node image (offset + i) = some a ∧ r i = image a := by
    obtain ⟨a,here,byte⟩ := fetched.got i inside
    rw [dueStraight low below inside.le] at here
    exact ⟨a,here,byte⟩
  have inside {x : Nat} (from_ : offset ≤ x) (before : x < offset + n) (short : x < s) :
      ∃ i < due s offset n, x = offset + i := ⟨x - offset,by unfold due; omega,by omega⟩
  constructor
  · intro covered i less hole
    obtain ⟨a,here,byte⟩ := got less
    have within : offset + i < offset + n ∧ offset + i < s := by unfold due at less; omega
    rw [byte,covered.holes (offset + i) a (Nat.le_add_right _ _) within.1 within.2 hole here]
  · intro zero
    constructor
    · intro x from_ before short
      obtain ⟨i,less,rfl⟩ := inside from_ before short
      obtain ⟨a,here,_⟩ := got less
      exact ⟨a,here⟩
    · intro past
      have last : max offset s = offset + due s offset n := by unfold due; omega
      have missing := fetched.short (by unfold due; omega)
      rwa [dueStraight low below le_rfl,← last] at missing
    · intro x a from_ before short hole here
      obtain ⟨i,less,rfl⟩ := inside from_ before short
      obtain ⟨b,there,byte⟩ := got less
      cases here.symm.trans there
      rw [← byte,zero i less hole]

end Fetching

section Files
variable {env : Env} {state : NodeState} {node : Ext2Inode} {s size count offset : Nat}

theorem readFileEq (pos : 0 < mul64 size count) (fuel : Nat) (buffer : Mem) (world : World) :
    readExt2File env fuel state (some buffer) size count offset world =
      ext2ReadInodeData env fuel state.basic (some buffer) offset (mul64 size count) world := by
  have parts : ¬ (size = 0 ∨ count = 0) := by
    rintro (rfl | rfl)
    · rw [mul64,Nat.zero_mul] at pos
      exact absurd pos (Nat.lt_irrefl 0)
    · rw [mul64,Nat.mul_zero] at pos
      exact absurd pos (Nat.lt_irrefl 0)
  exact if_neg parts

theorem coveredReads (full : env.Full) (allocates : env.Allocates) (block : BlockSize state.basic.blockSize)
    (held : state.basic.node = some node) (low : s < 2^32) (below : offset < 2^64) (pos : 0 < mul64 size count)
    {world : World} (covered : Covered state.basic node world.disk s offset (mul64 size count)) (buffer : Mem) :
    ReadsSize env state node s size count offset world buffer := by
  have short : mul64 size count < 2^64 := Nat.mod_lt _ (by decide)
  obtain ⟨n,r,after,⟨fuel,returns⟩,fetched | ⟨less,_,all⟩⟩ := readReaches full allocates block held
    (dueClimbs block low below short) (Nat.min_le_left _ _) pos short world buffer
  · obtain rfl := coveredDue low below covered fetched
    exact ⟨fuel,after,r,fun k => (readFileEq pos _ buffer world).trans (returns k),fetched.rest,
      (fetchedCovered low below pos fetched).mp covered⟩
  · obtain ⟨a,here⟩ := all (due s offset (mul64 size count)) (by omega)
    have past : s < offset + mul64 size count := by unfold due at less; omega
    have last : max offset s = offset + due s offset (mul64 size count) := by unfold due at less ⊢; omega
    rw [dueStraight low below le_rfl,← last,covered.ends past] at here
    cases here

theorem readsCovered (full : env.Full) (allocates : env.Allocates) (block : BlockSize state.basic.blockSize)
    (held : state.basic.node = some node) (low : s < 2^32) (below : offset < 2^64) (pos : 0 < mul64 size count)
    {world : World} {buffer : Mem} (reads : ReadsSize env state node s size count offset world buffer) :
    Covered state.basic node world.disk s offset (mul64 size count) := by
  have short : mul64 size count < 2^64 := Nat.mod_lt _ (by decide)
  obtain ⟨fuel,last,q,run,_,zero⟩ := reads
  have own : Returns env state.basic offset (mul64 size count) world buffer _ last q :=
    ⟨fuel,fun k => (readFileEq pos _ buffer world).symm.trans (run k)⟩
  obtain ⟨n,r,after,returns,ended⟩ := readReaches full allocates block held (dueClimbs block low below short)
    (Nat.min_le_left _ _) pos short world buffer
  obtain ⟨rfl,rfl⟩ := returnsUnique own returns
  rcases ended with fetched | ⟨less,reach,_⟩
  · exact (fetchedCovered low below pos fetched).mpr zero
  · omega

theorem statHeld {stat : Stat} (run : statExt2File state = .ret stat) :
    ∃ node, state.basic.node = some node ∧ stat = ⟨node.typePerms.toNat,node.sizeLow.toNat⟩ := by
  unfold statExt2File at run
  cases held : state.basic.node with
  | none =>
    rw [held] at run
    cases run
  | some node =>
    rw [held] at run
    cases run
    exact ⟨node,rfl,rfl⟩

theorem statBelow {stat : Stat} (run : statExt2File state = .ret stat) : stat.stSize < 2^32 := by
  obtain ⟨node,_,rfl⟩ := statHeld run
  exact node.sizeLow.toNat_lt

end Files

/-- A read of a file delivers what there is up to the size that stat reports, with zeros in
the holes, exactly when the code finds all blocks of the range below the size, none at the
size, and zeros where the layout has no block. -/
theorem sizedIff {env : Env} {state : NodeState} {node : Ext2Inode} {stat : Stat} (full : env.Full)
    (allocates : env.Allocates) (block : BlockSize state.basic.blockSize) (held : state.basic.node = some node)
    (run : statExt2File state = .ret stat) {size count offset : Nat} (below : offset < 2^64)
    (pos : 0 < mul64 size count) (world : World) (buffer : Mem) :
    ReadsSize env state node stat.stSize size count offset world buffer ↔
      Covered state.basic node world.disk stat.stSize offset (mul64 size count) :=
  ⟨readsCovered full allocates block held (statBelow run) below pos,
    fun covered => coveredReads full allocates block held (statBelow run) below pos covered buffer⟩

def firstBlock (s : UInt32) : Ext2Inode := ⟨0,s,fun i => if i = 0 then 1 else 0,0,0,0⟩

def firstFile (s : UInt32) : NodeState where
  super := ⟨"",zeros,0,⟨none,0,1024,2⟩,SuperBlock.ofBytes zeros⟩
  basic := ⟨some (firstBlock s),2,1024,12⟩

def blankWorld : World := ⟨zeros,0,0,0⟩

theorem firstFound (s : UInt32) {x : Nat} (inside : x < 1024) :
    address (firstFile s).basic (firstBlock s) zeros x = some (add64 (mul64 1 1024) (x % 1024)) := by
  have index : x / 1024 = 0 := Nat.div_eq_of_lt inside
  change (resolved (firstFile s).basic (firstBlock s) zeros (x / 1024)).map _ = _
  rw [index]
  rfl

theorem sizedWholeBlock : ReadsSize wholeEnv (firstFile 1024) (firstBlock 1024) 1024 1 2000 0 blankWorld zeros := by
  have stat : statExt2File (firstFile 1024) = .ret ⟨0,1024⟩ := rfl
  refine (sizedIff (fun _ _ _ => le_rfl) (fun _ => rfl) ⟨0,by decide,rfl⟩ rfl stat (by decide) (by decide)
    blankWorld zeros).mpr ⟨?_,fun _ => rfl,?_⟩
  · exact fun x _ _ inside => ⟨_,firstFound 1024 inside⟩
  · exact fun _ _ _ _ _ _ _ => rfl

theorem slackRead : ¬ ∀ (env : Env) (state : NodeState) (node : Ext2Inode) (stat : Stat) (size count offset : Nat)
    (world : World) (buffer : Mem), env.Full → env.Allocates → BlockSize state.basic.blockSize →
    state.basic.node = some node → statExt2File state = .ret stat → offset < 2^64 → 0 < mul64 size count →
    ReadsSize env state node stat.stSize size count offset world buffer := by
  intro all
  have covered := readsCovered (fun _ _ _ => le_rfl) (fun _ => rfl) ⟨0,by decide,rfl⟩ rfl (by decide) (by decide) (by decide)
    (all wholeEnv (firstFile 10) (firstBlock 10) ⟨0,10⟩ 1 1024 0 blankWorld zeros (fun _ _ _ => le_rfl) (fun _ => rfl)
      ⟨0,by decide,rfl⟩ rfl rfl (by decide) (by decide))
  have ended := covered.ends (by decide)
  change address (firstFile 10).basic (firstBlock 10) zeros 10 = none at ended
  rw [firstFound 10 (by decide)] at ended
  cases ended

end Kdrivers.Ext2Size
