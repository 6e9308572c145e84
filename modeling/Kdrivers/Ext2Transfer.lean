import Kdrivers.Ext2Layout

/-! What a whole traversal transfers when the partition moves every byte it is asked to:
each byte of the range goes to or comes from its own address, up to the first block
index that does not resolve. -/
namespace Kdrivers.Ext2Transfer
open Bytes BitFields Vfs Ext2State Ext2Traverse Ext2Cache Ext2Resolve Ext2ReadOnly Ext2Layout IndexTree

def resolved (st : BasicState) (node : Ext2Inode) (image : Mem) (b : Nat) : Option Nat :=
  lookup (roots node) (entryAt st image) (place st.blockSize b)

def byteAt (st : BasicState) (node : Ext2Inode) (image : Mem) (x : Nat) : Option Nat :=
  (resolved st node image (x / st.blockSize)).map fun block => block * st.blockSize + x % st.blockSize

def TableOf (st : BasicState) (node : Ext2Inode) (image : Mem) : Tables :=
  Named (roots node) (entryAt st image) (st.blockSize / 4)

def DataOf (st : BasicState) (node : Ext2Inode) (image : Mem) (x : Nat) : Prop :=
  Led (roots node) (entryAt st image) 12 (st.blockSize / 4) x

/- The blocks an inode names lie on a partition of at most 2^64 bytes, and no block of
data is a table. -/
structure Sound (st : BasicState) (node : Ext2Inode) (image : Mem) : Prop where
  tables : ∀ l t, TableOf st node image l t → (t + 1) * st.blockSize ≤ 2^64
  data : ∀ x, DataOf st node image x → (x + 1) * st.blockSize ≤ 2^64
  apart : ∀ l t, TableOf st node image l t → ¬ DataOf st node image t

theorem noTables {st : BasicState} {node : Ext2Inode} {image : Mem} (plain : ∀ l, node.top l = 0) (l : Level) (t : Nat) :
    ¬ TableOf st node image l t := by
  intro named
  induction named with
  | top l nonzero => exact nonzero (plain l)
  | entry _ _ _ _ ih => exact ih

theorem addrInside {st : BasicState} {t : Nat} (sized : 4 ≤ st.blockSize) (fits : (t + 1) * st.blockSize ≤ 2^64) :
    addr st t = t * st.blockSize := by
  rw [Nat.add_mul,Nat.one_mul] at fits
  exact Nat.mod_eq_of_lt (by omega)

theorem sameBlock {bs x i n : Nat} (short : n ≤ bs - x % bs) (low : i < n) :
    (x + i) / bs = x / bs ∧ (x + i) % bs = x % bs + i := by
  have split := Nat.div_add_mod x bs
  have inside : x % bs + i < bs := by omega
  constructor
  · rw [← split,Nat.add_assoc,Nat.mul_add_div (by omega),Nat.div_eq_of_lt inside,Nat.add_zero,split]
  · rw [← Nat.mod_eq_of_lt inside,Nat.mod_add_mod]

section Transfers
variable {σ : Type} {env : Env} {st : BasicState} {node : Ext2Inode} {c : Client σ} {image : Mem}
  {T : Tables} {D : Nat → Prop} {offset size : Nat}

theorem byteAtNear {t i n block : Nat} (short : n ≤ st.blockSize - (offset + t) % st.blockSize) (low : i < n)
    (found : resolved st node image ((offset + t) / st.blockSize) = some block) :
    byteAt st node image (offset + t + i) = some (block * st.blockSize + (offset + t) % st.blockSize + i) := by
  obtain ⟨index,inner⟩ := sameBlock short low
  rw [byteAt,index,found,inner,Option.map_some,Nat.add_assoc]

theorem byteAtNone {x : Nat} : byteAt st node image x = none ↔ resolved st node image (x / st.blockSize) = none := by
  rw [byteAt,Option.map_eq_none_iff]

theorem closedNamed (full : env.Full) (st : BasicState) (node : Ext2Inode) (image : Mem) :
    Closed env st node image (TableOf st node image) (DataOf st node image) := by
  have exactEntry {block i : Nat} {table : Mem} (loaded : Loaded env st image block table)
      (inside : i < st.blockSize / 4) : le32 table (4 * i) = entryAt st image block i :=
    readsExact full ⟨inside,table,loaded,rfl⟩
  constructor
  · exact fun l nonzero => .top l nonzero
  · intro upper lower higher block table i named loaded inside nonzero
    rw [exactEntry loaded inside] at nonzero ⊢
    exact .entry higher named inside nonzero
  · exact fun i low nonzero => ledDirect (roots node) (entryAt st image) (st.blockSize / 4) low nonzero
  · intro block table i named loaded inside nonzero
    rw [exactEntry loaded inside] at nonzero ⊢
    exact ledLeaf 12 named inside nonzero

theorem blockIndexInside (st : BasicState) (fits : offset + size ≤ 2^64) {w : Walk σ} (more : w.traversed < size) :
    blockIndex st offset w = (offset + w.traversed) / st.blockSize := by
  unfold blockIndex
  rw [addInside fits more,Nat.add_comm]

theorem blockJankInside (st : BasicState) (fits : offset + size ≤ 2^64) {w : Walk σ} (more : w.traversed < size) :
    blockJank st offset w = (offset + w.traversed) % st.blockSize := by
  rw [blockJank,blockIndexInside st fits more,addInside fits more,Nat.add_comm offset,Nat.mul_comm,
    Nat.mod_eq_sub_mul_div]

theorem straightTurn (full : env.Full) (allocates : env.Allocates) (sized : 4 ≤ st.blockSize)
    (gentle : Gentle env st node c image T D size) (fits : offset + size ≤ 2^64) (short : size < 2^64)
    {w : Walk σ} (straight : Straight env st node image T offset size w) (more : w.traversed < size) :
    (∃ block found, resolved st node image ((offset + w.traversed) / st.blockSize) = some block ∧ D block ∧
      Same w found ∧
      let visit := c.visit found.world found.data block w.traversed ((offset + w.traversed) % st.blockSize)
      let after := { found with
        world := visit.2.1
        data := visit.2.2
        traversed := w.traversed + visit.1 }
      traverseStep env st node c offset w = .next () after ∧ Straight env st node image T offset size after) ∨
    (∃ e, resolved st node image ((offset + w.traversed) / st.blockSize) = none ∧
      traverseStep env st node c offset w = .exit e ∧ e.data = w.data ∧ e.traversed = w.traversed) := by
  have index := blockIndexInside st fits more
  have jank := blockJankInside st fits more
  obtain ⟨block,last,there,found,cached,same,data,led⟩ | ⟨last,gone,ended,kept,count⟩ := findBlockCases
    (gentleSetting full.stable gentle) full allocates sized straight.cached fun _ => straight.rooted more
  · have visited := straightVisit gentle fits short straight more cached same data led
    have step := stepFound sized found
    dsimp only at visited
    rw [same.2.2] at visited step
    obtain ⟨moved,next⟩ := visited
    rw [moved] at step next
    rw [index] at there
    refine .inl ⟨block,last,there,data,same,?_⟩
    rw [← jank]
    exact ⟨step,next⟩
  · rw [index] at gone
    exact .inr ⟨last,gone,stepExit sized ended,kept,count⟩

theorem loopMore {fuel : Nat} {w e : Walk σ} (ended : traverseLoop env st node c offset size fuel w = .exit e)
    (k : Nat) : traverseLoop env st node c offset size (fuel + k) w = .exit e := by
  induction fuel generalizing w with
  | zero => cases ended
  | succ fuel ih =>
    rw [Nat.add_right_comm]
    unfold traverseLoop at ended ⊢
    split at ended
    · rename_i more
      rw [if_pos more]
      cases run : traverseStep env st node c offset w with
      | next u after =>
        rw [run] at ended
        exact ih ended
      | exit after =>
        rw [run] at ended
        exact ended
      | fault f =>
        rw [run] at ended
        cases ended
    · rename_i done
      rw [if_neg done]
      exact ended

theorem loopAgree {j k : Nat} {w d e : Walk σ} (left : traverseLoop env st node c offset size j w = .exit d)
    (right : traverseLoop env st node c offset size k w = .exit e) : d = e := by
  have first := loopMore left k
  have second := loopMore right j
  rw [Nat.add_comm] at second
  cases first.symm.trans second
  rfl

structure Ends (env : Env) (st : BasicState) (node : Ext2Inode) (image : Mem) (T : Tables) (offset size : Nat)
    (P : Walk σ → Prop) (e : Walk σ) : Prop where
  bound : e.traversed ≤ size
  last : ∃ w, Straight env st node image T offset size w ∧ P w ∧ e.data = w.data ∧ e.traversed = w.traversed ∧
    (e.traversed = size → e = w)
  short : e.traversed < size → resolved st node image ((offset + e.traversed) / st.blockSize) = none

/-- A callback that moves whatever the block and the range have left comes to the end,
keeping what each of its visits keeps. -/
theorem transferEnds (full : env.Full) (allocates : env.Allocates) (sized : 4 ≤ st.blockSize)
    (gentle : Gentle env st node c image T D size) (fits : offset + size ≤ 2^64) (short : size < 2^64)
    (count : ∀ world data block t j, (c.visit world data block t j).1 = min (st.blockSize - j) (size - t))
    {P : Walk σ → Prop}
    (keep : ∀ w found block, P w → w.traversed < size → Same w found → D block →
      resolved st node image ((offset + w.traversed) / st.blockSize) = some block →
      let visit := c.visit found.world found.data block w.traversed ((offset + w.traversed) % st.blockSize)
      P { found with world := visit.2.1, data := visit.2.2, traversed := w.traversed + visit.1 })
    {w : Walk σ} (straight : Straight env st node image T offset size w) (holds : P w) :
    ∃ fuel e, traverseLoop env st node c offset size fuel w = .exit e ∧
      Ends env st node image T offset size P e := by
  induction left : size - w.traversed using Nat.strong_induction_on generalizing w with
  | _ left ih =>
    by_cases more : w.traversed < size
    · obtain ⟨block,found,here,data,same,step,next⟩ | ⟨e,none,step,data,count⟩ :=
        straightTurn full allocates sized gentle fits short straight more
      · have some : 0 < (c.visit found.world found.data block w.traversed
            ((offset + w.traversed) % st.blockSize)).1 := by
          have inside := Nat.mod_lt (offset + w.traversed) (show 0 < st.blockSize by omega)
          rw [count]
          omega
        obtain ⟨fuel,e,run,ends⟩ := ih _ (by dsimp only; omega) next (keep w found block holds more same data here) rfl
        refine ⟨fuel + 1,e,?_,ends⟩
        rw [traverseLoop,if_pos more,step]
        exact run
      · refine ⟨1,e,?_,⟨by omega,⟨w,straight,holds,data,count,by omega⟩,fun _ => by rw [count]; exact none⟩⟩
        rw [traverseLoop,if_pos more,step]
        rfl
    · have done : w.traversed = size := by have := straight.bound; omega
      refine ⟨1,w,?_,⟨straight.bound,⟨w,straight,holds,rfl,rfl,fun _ => rfl⟩,fun still => absurd still more⟩⟩
      rw [traverseLoop,if_neg more]

end Transfers

section Callbacks
variable {env : Env} {st : BasicState} {node : Ext2Inode} {image : Mem} {offset size : Nat}

theorem dataAddr (sized : 4 ≤ st.blockSize) {block : Nat} (fits : (block + 1) * st.blockSize ≤ 2^64) {j : Nat}
    (inside : j < st.blockSize) : add64 (mul64 block st.blockSize) j = block * st.blockSize + j := by
  have base : mul64 block st.blockSize = block * st.blockSize := addrInside sized fits
  rw [Nat.add_mul,Nat.one_mul] at fits
  rw [base]
  exact Nat.mod_eq_of_lt (by omega)

structure Copied (st : BasicState) (node : Ext2Inode) (image : Mem) (offset : Nat) (buffer : Mem) (t : Nat)
    (data : Mem) : Prop where
  got : ∀ i < t, ∃ a, byteAt st node image (offset + i) = some a ∧ data i = image a
  rest : ∀ i, t ≤ i → data i = buffer i

theorem readKeep (full : env.Full) (sized : 4 ≤ st.blockSize)
    (within : ∀ x, DataOf st node image x → (x + 1) * st.blockSize ≤ 2^64) {buffer : Mem} (w found : Walk Mem) (block : Nat)
    (holds : w.world.disk = image ∧ Copied st node image offset buffer w.traversed w.data)
    (same : Same w found) (data : DataOf st node image block)
    (here : resolved st node image ((offset + w.traversed) / st.blockSize) = some block) :
    let visit := (readClient env st size).visit found.world found.data block w.traversed
      ((offset + w.traversed) % st.blockSize)
    visit.2.1.disk = image ∧ Copied st node image offset buffer (w.traversed + visit.1) visit.2.2 := by
  intro visit
  obtain ⟨disk,copied⟩ := holds
  have inside := Nat.mod_lt (offset + w.traversed) (show 0 < st.blockSize by omega)
  have pos := dataAddr sized (within block data) inside
  have count : visit.1 = min (st.blockSize - (offset + w.traversed) % st.blockSize) (size - w.traversed) :=
    Nat.min_eq_left (full _ _ _)
  have bytes : visit.2.2 = patch w.data w.traversed visit.1
      (view image (block * st.blockSize + (offset + w.traversed) % st.blockSize)) := by
    rw [← disk,← same.1,← same.2.1,← pos]
    rfl
  refine ⟨same.1.trans disk,?_,?_⟩
  · intro i below
    rw [bytes]
    by_cases old : i < w.traversed
    · rw [patchOutside (.inl old)]
      exact copied.got i old
    · have near := byteAtNear (t := w.traversed) (i := i - w.traversed) (n := visit.1) (by omega) (by omega) here
      rw [show offset + w.traversed + (i - w.traversed) = offset + i by omega] at near
      exact ⟨_,near,by rw [patchInside (by omega) below]; rfl⟩
  · intro i beyond
    rw [bytes,patchOutside (.inr beyond)]
    exact copied.rest i (by omega)

structure Stored (st : BasicState) (node : Ext2Inode) (image : Mem) (offset : Nat) (buffer : Mem) (t : Nat)
    (disk : Mem) : Prop where
  mapped : ∀ i < t, ∃ a, byteAt st node image (offset + i) = some a
  bytes : ∀ a, (∃ i < t, byteAt st node image (offset + i) = some a ∧ disk a = buffer i) ∨
    ((∀ i < t, byteAt st node image (offset + i) ≠ some a) ∧ disk a = image a)

theorem writeKeep (full : env.Full) (sized : 4 ≤ st.blockSize) (sound : Sound st node image) {buffer : Mem}
    (w found : Walk Mem) (block : Nat)
    (holds : w.data = buffer ∧ Stored st node image offset buffer w.traversed w.world.disk)
    (same : Same w found) (data : DataOf st node image block)
    (here : resolved st node image ((offset + w.traversed) / st.blockSize) = some block) :
    let visit := (writeClient env st size).visit found.world found.data block w.traversed
      ((offset + w.traversed) % st.blockSize)
    visit.2.2 = buffer ∧ Stored st node image offset buffer (w.traversed + visit.1) visit.2.1.disk := by
  intro visit
  obtain ⟨given,stored⟩ := holds
  have inside := Nat.mod_lt (offset + w.traversed) (show 0 < st.blockSize by omega)
  have pos := dataAddr sized (sound.data block data) inside
  have count : visit.1 = min (st.blockSize - (offset + w.traversed) % st.blockSize) (size - w.traversed) :=
    Nat.min_eq_left (full _ _ _)
  have bytes : visit.2.1.disk = patch w.world.disk
      (block * st.blockSize + (offset + w.traversed) % st.blockSize) visit.1 (view buffer w.traversed) := by
    rw [← same.1,← given,← same.2.1,← pos]
    rfl
  have near (i : Nat) (low : w.traversed ≤ i) (high : i < w.traversed + visit.1) :
      byteAt st node image (offset + i) =
        some (block * st.blockSize + (offset + w.traversed) % st.blockSize + (i - w.traversed)) := by
    have near := byteAtNear (t := w.traversed) (i := i - w.traversed) (n := visit.1) (by omega) (by omega) here
    rwa [show offset + w.traversed + (i - w.traversed) = offset + i by omega] at near
  refine ⟨same.2.1.trans given,?_,?_⟩
  · intro i below
    by_cases old : i < w.traversed
    · exact stored.mapped i old
    · exact ⟨_,near i (by omega) below⟩
  · intro a
    by_cases written : block * st.blockSize + (offset + w.traversed) % st.blockSize ≤ a ∧
        a < block * st.blockSize + (offset + w.traversed) % st.blockSize + visit.1
    · refine .inl ⟨w.traversed + (a - (block * st.blockSize + (offset + w.traversed) % st.blockSize)),by omega,?_,?_⟩
      · rw [near _ (by omega) (by omega)]
        congr 1
        omega
      · rw [bytes,patchInside written.1 written.2]
        rfl
    · have kept : visit.2.1.disk a = w.world.disk a := by
        rw [bytes]
        exact patchOutside (by omega)
      rw [kept]
      obtain ⟨i,low,at_,byte⟩ | ⟨never,byte⟩ := stored.bytes a
      · exact .inl ⟨i,by omega,at_,byte⟩
      · refine .inr ⟨fun i below => ?_,byte⟩
        by_cases old : i < w.traversed
        · exact never i old
        · rw [near i (by omega) below]
          intro same
          have := Option.some.inj same
          omega

theorem readSoundGentle (full : env.Full) (st : BasicState) (node : Ext2Inode) (image : Mem) (size : Nat) :
    Gentle env st node (readClient env st size) image (TableOf st node image) (DataOf st node image) size :=
  ⟨barrenRead env st size,closedNamed full st node image,fun _ _ _ _ _ _ kept => kept,
    fun _ _ _ _ _ => (Nat.min_le_left _ _).trans (Nat.min_le_right _ _)⟩

theorem writeSoundGentle (full : env.Full) (sized : 4 ≤ st.blockSize) (sound : Sound st node image) (size : Nat) :
    Gentle env st node (writeClient env st size) image (TableOf st node image) (DataOf st node image) size := by
  refine ⟨?_,closedNamed full st node image,?_,fun _ _ _ _ _ =>
    (Nat.min_le_left _ _).trans (Nat.min_le_right _ _)⟩
  · intro f made data inode
    cases made
    rfl
  · intro world data block t j member kept l table named i below
    have away : (ext2WriteCallback env st size world data block t j).2.1.disk (addr st table + i) =
        world.disk (addr st table + i) := by
      simp only [ext2WriteCallback,vfsWrite,seekDisk,seekPos,Nat.min_eq_left (full _ _ _)]
      by_cases beyond : st.blockSize ≤ j
      · rw [Nat.sub_eq_zero_of_le beyond,Nat.zero_min,patchNone]
      · rw [dataAddr sized (sound.data block member) (by omega)]
        refine patchOutside ?_
        rw [addrInside sized (sound.tables l table named)]
        rw [spanFull full] at below
        have other : table ≠ block := fun same => sound.apart l table named (same ▸ member)
        by_contra neither
        have here : table * st.blockSize + i = block * st.blockSize + (table * st.blockSize + i -
            block * st.blockSize) := by omega
        exact blocksApart other below (by omega) here
    exact away.trans (kept l table named i below)

theorem straightTables {σ : Type} (full : env.Full) (sized : 4 ≤ st.blockSize) (sound : Sound st node image) {w : Walk σ}
    (straight : Straight env st node image (TableOf st node image) offset size w) (l : Level) (t : Nat)
    (named : TableOf st node image l t) (i : Nat) (below : i < st.blockSize) :
    w.world.disk (t * st.blockSize + i) = image (t * st.blockSize + i) := by
  rw [← addrInside sized (sound.tables l t named)]
  exact straight.cached.kept l t named i (by rw [spanFull full]; exact below)

theorem readTransfer (full : env.Full) (allocates : env.Allocates) (sized : 4 ≤ st.blockSize) {world : World}
    (within : ∀ x, DataOf st node world.disk x → (x + 1) * st.blockSize ≤ 2^64) (held : st.node = some node)
    (fits : offset + size ≤ 2^64) (short : size < 2^64) (nonzero : size ≠ 0) (buffer : Mem) :
    ∃ fuel n after r, (∀ k, ext2ReadInodeData env (fuel + k) st (some buffer) offset size world =
      .ret (n,after,some r)) ∧ n ≤ size ∧ (n < size → byteAt st node world.disk (offset + n) = none) ∧
      Copied st node world.disk offset buffer n r ∧ (n = size → after.disk = world.disk) := by
  have gentle := readSoundGentle full st node world.disk size
  obtain ⟨fuel,e,run,ends⟩ := transferEnds full allocates sized gentle fits short
    (fun _ _ _ _ _ => Nat.min_eq_left (full _ _ _))
    (P := fun w => w.world.disk = world.disk ∧ Copied st node world.disk offset buffer w.traversed w.data)
    (fun w found block holds more same data here => readKeep full sized within w found block holds same data here)
    (straightStart world rfl buffer) ⟨rfl,fun i low => absurd low (Nat.not_lt_zero i),fun _ _ => rfl⟩
  obtain ⟨w,straight,⟨disk,copied⟩,data,count,whole⟩ := ends.last
  refine ⟨fuel,e.traversed,traverseExit env st node e,e.data,fun k => ?_,ends.bound,?_,?_,?_⟩
  · rw [readInodeDataEq held (fuel + k) buffer offset nonzero world,loopMore run k]
  · intro less
    exact byteAtNone.mpr (ends.short less)
  · rw [data,count]
    exact copied
  · intro done
    rw [whole done,exitKeeps (gentleSetting full.stable gentle) straight.cached,disk]

theorem readAgree (held : st.node = some node) (nonzero : size ≠ 0) {j k : Nat} {buffer : Mem} {world a b : World}
    {n l : Nat} {r q : Option Mem}
    (left : ext2ReadInodeData env j st (some buffer) offset size world = .ret (n,a,r))
    (right : ext2ReadInodeData env k st (some buffer) offset size world = .ret (l,b,q)) : n = l ∧ r = q ∧ a = b := by
  obtain ⟨d,loop,rfl,rfl,rfl⟩ := readEnds held nonzero left
  obtain ⟨e,other,rfl,rfl,rfl⟩ := readEnds held nonzero right
  cases loopAgree loop other
  exact ⟨rfl,rfl,rfl⟩

theorem writeInodeDataEq (m : Masked) {state : NodeState} (held : state.basic.node = some node)
    (enabled : m.read state.basic.attributes 1 1 ≠ 0) (fuel : Nat) (buffer : Mem) (offset : Nat)
    (nonzero : size ≠ 0) (world : World) :
    ext2WriteInodeData m env fuel state (some buffer) offset size world =
      match traverseLoop env state.basic node (writeClient env state.basic size) offset size fuel
        (.start world buffer) with
      | .next _ _ => .running
      | .exit e => .ret (e.traversed,traverseExit env state.basic node e)
      | .fault f => .fault f := by
  have allowed : ¬ (size = 0 ∨ m.read state.basic.attributes 1 1 = 0) := not_or.mpr ⟨nonzero,enabled⟩
  unfold ext2WriteInodeData ext2TraverseBlocks
  simp only [if_neg allowed,if_neg nonzero,held]
  cases traverseLoop env state.basic node (writeClient env state.basic size) offset size fuel
    (.start world buffer) <;> rfl

structure Wrote (st : BasicState) (node : Ext2Inode) (offset size : Nat) (buffer : Mem) (world : World) (n : Nat)
    (after : World) : Prop where
  bound : n ≤ size
  short : n < size → byteAt st node world.disk (offset + n) = none
  mapped : ∀ i < n, ∃ a, byteAt st node world.disk (offset + i) = some a
  stored : n = size → Stored st node world.disk offset buffer size after.disk
  tables : n = size → ∀ l t, TableOf st node world.disk l t → ∀ i < st.blockSize,
    after.disk (t * st.blockSize + i) = world.disk (t * st.blockSize + i)

theorem writeTransfer (m : Masked) {state : NodeState} (full : env.Full) (allocates : env.Allocates)
    (sized : 4 ≤ state.basic.blockSize) {world : World} (sound : Sound state.basic node world.disk)
    (held : state.basic.node = some node) (enabled : m.read state.basic.attributes 1 1 ≠ 0)
    (fits : offset + size ≤ 2^64) (short : size < 2^64) (nonzero : size ≠ 0) (buffer : Mem) :
    ∃ fuel n after, ext2WriteInodeData m env fuel state (some buffer) offset size world = .ret (n,after) ∧
      Wrote state.basic node offset size buffer world n after := by
  have gentle := writeSoundGentle full sized sound size
  obtain ⟨fuel,e,run,ends⟩ := transferEnds full allocates sized gentle fits short
    (fun _ _ _ _ _ => Nat.min_eq_left (full _ _ _))
    (P := fun w => w.data = buffer ∧ Stored state.basic node world.disk offset buffer w.traversed w.world.disk)
    (fun w found block holds more same data here => writeKeep full sized sound w found block holds same data here)
    (straightStart world rfl buffer)
    ⟨rfl,fun i low => absurd low (Nat.not_lt_zero i),fun a => .inr ⟨fun i low => absurd low (Nat.not_lt_zero i),rfl⟩⟩
  obtain ⟨w,straight,⟨_,stored⟩,_,count,whole⟩ := ends.last
  refine ⟨fuel,e.traversed,traverseExit env state.basic node e,?_,ends.bound,?_,?_,?_,?_⟩
  · rw [writeInodeDataEq m held enabled fuel buffer offset nonzero world,run]
  · intro less
    exact byteAtNone.mpr (ends.short less)
  · rw [count]
    exact stored.mapped
  · intro done
    have same := whole done
    rw [same,exitKeeps (gentleSetting full.stable gentle) straight.cached,← done,count]
    exact stored
  · intro done l t named i below
    have same := whole done
    rw [same,exitKeeps (gentleSetting full.stable gentle) straight.cached]
    exact straightTables full sized sound straight l t named i below

theorem writeAgree (m : Masked) {state : NodeState} (held : state.basic.node = some node)
    (enabled : m.read state.basic.attributes 1 1 ≠ 0) (nonzero : size ≠ 0) {j k : Nat} {buffer : Mem}
    {world a b : World} {n l : Nat}
    (left : ext2WriteInodeData m env j state (some buffer) offset size world = .ret (n,a))
    (right : ext2WriteInodeData m env k state (some buffer) offset size world = .ret (l,b)) : n = l ∧ a = b := by
  rw [writeInodeDataEq m held enabled _ _ _ nonzero] at left right
  cases one : traverseLoop env state.basic node (writeClient env state.basic size) offset size j
      (.start world buffer) with
  | next u w => rw [one] at left; cases left
  | fault f => rw [one] at left; cases left
  | exit d =>
    cases two : traverseLoop env state.basic node (writeClient env state.basic size) offset size k
        (.start world buffer) with
    | next u w => rw [two] at right; cases right
    | fault f => rw [two] at right; cases right
    | exit e =>
      cases loopAgree one two
      rw [one] at left
      rw [two] at right
      cases left
      cases right
      exact ⟨rfl,rfl⟩

end Callbacks

end Kdrivers.Ext2Transfer
