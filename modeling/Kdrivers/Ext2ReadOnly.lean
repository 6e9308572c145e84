import Kdrivers.Ext2Resolve

/-! What reading an inode does to a partition that moves as much of a block each time. The
cached tables go back to where they came from, so nothing changes, unless a top table is wanted
whose pointer in the inode is zero: its unread buffer is then written to block 0 on the way out. -/
namespace Kdrivers.Ext2ReadOnly
open Bytes Vfs Ext2State Ext2Traverse Ext2Cache Ext2Resolve IndexTree

def indexAt (st : BasicState) (offset traversed : Nat) : Nat := add64 traversed offset / st.blockSize

def jankAt (st : BasicState) (offset traversed : Nat) : Nat :=
  add64 traversed offset - indexAt st offset traversed * st.blockSize

def copySize (st : BasicState) (offset size traversed : Nat) : Nat :=
  min (st.blockSize - jankAt st offset traversed) (size - traversed)

def moved (env : Env) (st : BasicState) (offset size block traversed : Nat) : Nat :=
  min (copySize st offset size traversed)
    (env.grant 0 (add64 (addr st block) (jankAt st offset traversed)) (copySize st offset size traversed))

def Exactly (st : BasicState) (image : Mem) (t i pointer : Nat) : Prop :=
  i < st.blockSize / 4 ∧ pointer = entryAt st image t i

inductive Trail (st : BasicState) (node : Ext2Inode) (reads : Nat → Nat → Nat → Prop)
    (advance : Nat → Nat → Nat) (offset size : Nat) : Nat → Homes → Prop where
  | start : Trail st node reads advance offset size 0 fun _ => none
  | step {t block : Nat} {h after : Homes} : Trail st node reads advance offset size t h → t < size →
      Resolves (roots node) reads h (place st.blockSize (indexAt st offset t)) (.found block after) →
      Trail st node reads advance offset size (add64 t (advance block t)) after

/- No position is reached at whose index a top table is missing with a zero pointer. -/
def SpillFree (st : BasicState) (node : Ext2Inode) (reads : Nat → Nat → Nat → Prop)
    (advance : Nat → Nat → Nat) (offset size : Nat) : Prop :=
  ∀ t h, Trail st node reads advance offset size t h → t < size →
    ¬ Resolves (roots node) reads h (place st.blockSize (indexAt st offset t)) .spill

theorem readsFull {env : Env} (full : env.Full) (st : BasicState) (image : Mem) :
    Reads env st image = Exactly st image := by
  funext t i pointer
  apply propext
  constructor
  · intro reads
    exact ⟨reads.1,readsExact full reads⟩
  · rintro ⟨inside,rfl⟩
    refine ⟨inside,view image (addr st t),fun j _ => by simp,le32Congr fun j _ => ?_⟩
    simp [Nat.add_assoc]

theorem barrenRead (env : Env) (st : BasicState) (size : Nat) : Barren (readClient env st size) := nofun

section Reading
variable {env : Env} {st : BasicState} {node : Ext2Inode} {image : Mem}

theorem readSetting (stable : env.Stable) (st : BasicState) (node : Ext2Inode) (image : Mem) (size : Nat) :
    Setting env st node (readClient env st size) image (fun _ t => t < 2^32) fun b => b < 2^32 :=
  ⟨stable,barrenRead env st size,closedAll env st node image⟩

theorem cachedVisit {σ : Type} {T : Tables} {w : Walk σ} (cached : Cached env st node image T w) {world : World}
    (kept : Kept env st image T world.disk) (data : σ) (traversed : Nat) :
    Cached env st node image T { w with world := world, data := data, traversed := traversed } :=
  ⟨kept,cached.held,cached.empty,cached.top⟩

structure Reading (env : Env) (st : BasicState) (node : Ext2Inode) (image : Mem) (offset size : Nat)
    (w : Walk Mem) : Prop where
  cached : Cached env st node image (fun _ t => t < 2^32) w
  disk : w.world.disk = image
  trail : Trail st node (Reads env st image) (moved env st offset size) offset size w.traversed (homes node w)

theorem readingStart (world : World) (buffer : Mem) (offset size : Nat) :
    Reading env st node world.disk offset size (.start world buffer) :=
  ⟨startCached node world buffer (keptRefl env st world.disk _),rfl,.start⟩

theorem readingVisit (stable : env.Stable) {offset size : Nat} {w found : Walk Mem} {block : Nat}
    (reading : Reading env st node image offset size w) (more : w.traversed < size)
    (cached : Cached env st node image (fun _ t => t < 2^32) found) (same : Same w found)
    (led : Resolves (roots node) (Reads env st image) (homes node w)
      (place st.blockSize (blockIndex st offset w)) (.found block (homes node found))) :
    let visit := (readClient env st size).visit found.world found.data block found.traversed
      (blockJank st offset w)
    Reading env st node image offset size { found with
      world := visit.2.1
      data := visit.2.2
      traversed := add64 found.traversed visit.1 } := by
  have disk : found.world.disk = image := same.1.trans reading.disk
  have count : ((readClient env st size).visit found.world found.data block found.traversed
      (blockJank st offset w)).1 = moved env st offset size block w.traversed := by
    rw [same.2.2]
    exact stable _ 0 _ _
  refine ⟨cachedVisit cached (by exact disk ▸ cached.kept) _ _,disk,?_⟩
  rw [count,same.2.2]
  exact .step reading.trail more led

theorem readingStep (stable : env.Stable) {offset size : Nat} {w after : Walk Mem}
    (reading : Reading env st node image offset size w) (more : w.traversed < size)
    (step : traverseStep env st node (readClient env st size) offset w = .next () after) :
    Reading env st node image offset size after := by
  obtain ⟨_,block,found,run,rfl⟩ := stepNext step
  obtain ⟨cached,same,_,led⟩ := findBlockNext (readSetting stable st node image size) reading.cached run
  exact readingVisit stable reading more cached same led

theorem readInodeDataEq (held : st.node = some node) (fuel : Nat) (buffer : Mem) (offset : Nat) {size : Nat}
    (nonzero : size ≠ 0) (world : World) :
    ext2ReadInodeData env fuel st (some buffer) offset size world =
      match traverseLoop env st node (readClient env st size) offset size fuel (.start world buffer) with
      | .next _ _ => .running
      | .exit e => .ret (e.traversed,traverseExit env st node e,some e.data)
      | .fault f => .fault f := by
  unfold ext2ReadInodeData ext2TraverseBlocks
  simp only [if_neg nonzero,held]
  cases traverseLoop env st node (readClient env st size) offset size fuel (.start world buffer) <;> rfl

theorem readEnds {fuel : Nat} {buffer : Mem} {offset size : Nat} {world after : World} {n : Nat}
    {out : Option Mem} (held : st.node = some node) (nonzero : size ≠ 0)
    (run : ext2ReadInodeData env fuel st (some buffer) offset size world = .ret (n,after,out)) :
    ∃ e, traverseLoop env st node (readClient env st size) offset size fuel (.start world buffer) = .exit e ∧
      n = e.traversed ∧ after = traverseExit env st node e ∧ out = some e.data := by
  rw [readInodeDataEq held fuel buffer offset nonzero world] at run
  cases loop : traverseLoop env st node (readClient env st size) offset size fuel (.start world buffer) with
  | next u w => rw [loop] at run; cases run
  | exit e =>
    rw [loop] at run
    cases run
    exact ⟨e,rfl,rfl,rfl,rfl⟩
  | fault f => rw [loop] at run; cases run

theorem blockAddr {bs block : Nat} (large : bs ≤ 2^32) (small : block < 2^32) : mul64 block bs = block * bs := by
  have below : block * bs < 2^64 := by
    calc block * bs ≤ block * 2^32 := Nat.mul_le_mul_left _ large
      _ < 2^32 * 2^32 := Nat.mul_lt_mul_of_pos_right small (by decide)
  exact Nat.mod_eq_of_lt below

theorem trailRuns (full : env.Full) (allocates : env.Allocates) (sized : 4 ≤ st.blockSize) {offset size t : Nat}
    {h : Homes} {world : World} (buffer : Mem)
    (trail : Trail st node (Exactly st world.disk) (fun _ => copySize st offset size) offset size t h) :
    ∃ n w, (∀ fuel, traverseLoop env st node (readClient env st size) offset size (n + fuel)
        (.start world buffer) = traverseLoop env st node (readClient env st size) offset size fuel w) ∧
      Reading env st node world.disk offset size w ∧ w.traversed = t ∧ homes node w = h := by
  induction trail with
  | start => exact ⟨0,_,fun fuel => by rw [Nat.zero_add],readingStart world buffer offset size,rfl,rfl⟩
  | @step t block h after trail more led ih =>
    obtain ⟨n,w,run,reading,rfl,rfl⟩ := ih
    have reads := readsFull full st world.disk
    have unique : ∀ r, Resolves (roots node) (Reads env st world.disk) (homes node w)
        (place st.blockSize (blockIndex st offset w)) r → r = .found block after := by
      intro r other
      rw [reads] at other
      exact resolvesUnique (fun t i a b left right => left.2.trans right.2.symm) other led
    obtain ⟨last,found,cached,same,rfl⟩ := findBlockOnly (readSetting full.stable st node world.disk size) allocates sized
      reading.cached unique
    have count : ((readClient env st size).visit last.world last.data block w.traversed
        (blockJank st offset w)).1 = copySize st offset size w.traversed := Nat.min_eq_left (full _ _ _)
    refine ⟨n + 1,_,fun fuel => ?_,readingVisit full.stable reading more cached same (reads ▸ led),?_,rfl⟩
    · rw [Nat.add_assoc,run (1 + fuel),Nat.add_comm 1 fuel]
      rw [traverseLoop,if_pos more,stepFound sized found,same.2.2]
      rfl
    · simp only [same.2.2,count]

theorem writeTableFull (full : env.Full) (world : World) (block : Nat) (table : Mem) :
    (writeTable env st world block (some table)).disk = patch world.disk (addr st block) st.blockSize table := by
  have wrote := (writeFull full (vfsSeek world (addr st block)) table 0 st.blockSize).2
  rwa [viewZero] at wrote

theorem writeTableFirst (full : env.Full) (sized : 4 ≤ st.blockSize) (world : World) (block : Nat) (table : Mem) :
    (writeTable env st world block (some table)).disk 0 =
      if addr st block = 0 then table 0 else world.disk 0 := by
  rw [writeTableFull full]
  split
  · rename_i first
    rw [first,patchInside (by omega) (by omega)]
  · rename_i away
    exact patchOutside (.inl (Nat.pos_of_ne_zero away))

theorem writeAway (full : env.Full) (sized : 4 ≤ st.blockSize) (large : st.blockSize ≤ 2^32) {w : Walk Mem}
    (cached : Cached env st node image (fun _ t => t < 2^32) w) (l : Level) (world : World) :
    (writeTable env st world (home node w l) (w.table l)).disk 0 = world.disk 0 := by
  cases held : w.table l with
  | none => rfl
  | some table =>
    obtain ⟨nonzero,small,_⟩ := cached.held l table held
    rw [writeTableFirst full sized,if_neg]
    rw [addr,blockAddr large small]
    exact Nat.mul_ne_zero nonzero (by omega)

theorem writeSpilled (full : env.Full) (sized : 4 ≤ st.blockSize) {l : Level} (zero : node.top l = 0)
    {w : Walk Mem} (last : w.last l = 0) (world : World) (table : Mem) :
    (writeTable env st world (home node w l) (some table)).disk 0 = table 0 := by
  rw [writeTableFirst full sized,if_pos]
  simp [addr,mul64,home,last,zero]

theorem exitSpilled (full : env.Full) (sized : 4 ≤ st.blockSize) (large : st.blockSize ≤ 2^32) {w e : Walk Mem}
    (cached : Cached env st node image (fun _ t => t < 2^32) w) {l : Level} (spilled : Spilled env node l w e)
    {garbage : Mem} (fresh : ∀ k, env.fresh k = some garbage) :
    (traverseExit env st node e).disk 0 = garbage 0 := by
  obtain ⟨zero,missing,k,world,_,rfl⟩ := spilled
  have last : w.last l = 0 := cached.empty l missing
  have triple : node.top .triple = home node w .triple := (homeTriple cached).symm
  have away := writeAway full sized large cached
  unfold traverseExit
  rw [fresh k]
  cases l with
  | single => exact writeSpilled full sized zero last _ _
  | double =>
    have other : Function.update w.table .double (some garbage) .single = w.table .single := rfl
    exact (away .single _).trans (writeSpilled full sized zero last _ _)
  | triple =>
    refine (away .single _).trans ((away .double _).trans ?_)
    dsimp only
    rw [triple,Function.update_self]
    exact writeSpilled full sized zero last _ _

theorem spilledRead (full : env.Full) {garbage : Mem} (fresh : ∀ k, env.fresh k = some garbage)
    (sized : 4 ≤ st.blockSize) (large : st.blockSize ≤ 2^32) (held : st.node = some node) {offset size : Nat}
    {world : World} (buffer : Mem)
    (spills : ¬ SpillFree st node (Exactly st world.disk) (fun _ => copySize st offset size) offset size) :
    ∃ fuel n after out, ext2ReadInodeData env fuel st (some buffer) offset size world = .ret (n,after,out) ∧
      after.disk 0 = garbage 0 := by
  have allocates : env.Allocates := fun k => by rw [fresh k]; rfl
  unfold SpillFree at spills
  push Not at spills
  obtain ⟨t,h,trail,more,spill⟩ := spills
  obtain ⟨n,w,run,reading,rfl,rfl⟩ := trailRuns full allocates sized buffer trail
  have unique : ∀ r, Resolves (roots node) (Reads env st world.disk) (homes node w)
      (place st.blockSize (blockIndex st offset w)) r → r = .spill := by
    intro r other
    rw [readsFull full st world.disk] at other
    exact resolvesUnique (fun t i a b left right => left.2.trans right.2.symm) other spill
  obtain meets | ⟨l,last,ended,spilled,_⟩ := findBlockResolved
    (readSetting full.stable st node world.disk size) reading.cached (blockIndex st offset w)
  · cases found : findBlock env st node (readClient env st size) (blockIndex st offset w) w with
    | next b last =>
      rw [found] at meets
      cases unique _ meets.2.2.2
    | exit last =>
      rw [found] at meets
      obtain stop | poor := meets.2.2
      · cases unique _ stop
      · exact absurd allocates poor
    | fault f =>
      rw [found] at meets
      obtain poor | none := meets
      · exact absurd allocates poor
      · omega
  · have loop : traverseLoop env st node (readClient env st size) offset size (n + 1)
        (.start world buffer) = .exit last := by
      rw [run 1]
      rw [traverseLoop,if_pos more,stepExit sized ended]
      rfl
    refine ⟨n + 1,last.traversed,traverseExit env st node last,some last.data,?_,
      exitSpilled full sized large reading.cached spilled fresh⟩
    rw [readInodeDataEq held (n + 1) buffer offset (by omega) world,loop]

end Reading

theorem readCorruptsBlockZero : ¬ ∀ (env : Env) (st : BasicState) (buffer : Mem) (offset size fuel : Nat)
    (world after : World) (n : Nat) (out : Option Mem), env.Full →
    ext2ReadInodeData env fuel st (some buffer) offset size world = .ret (n,after,out) →
    after.disk = world.disk := by
  intro unchanged
  have same := unchanged ⟨fun _ _ n => n,fun _ => some fun _ => 1⟩
    ⟨some ⟨0,0,fun _ => 0,0,0,0⟩,0,1024,12⟩ zeros 12288 1 1 ⟨zeros,0,0,0⟩ _ _ _ (fun _ _ _ => le_rfl) rfl
  have first := congrFun same 0
  revert first
  decide

end Kdrivers.Ext2ReadOnly
