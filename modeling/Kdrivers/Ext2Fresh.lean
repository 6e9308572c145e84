import Kdrivers.Ext2Transfer

/-! A read against its own pieces: one call for each block, with nothing cached. A read
agrees with them as long as its positions only come to a table once those of the levels
above have not been passed; a range that comes round past 2^64 finds the tables of its end. -/
namespace Kdrivers.Ext2Fresh
open Bytes Vfs Ext2State Ext2Traverse Ext2Cache Ext2Resolve Ext2ReadOnly Ext2Layout Ext2Transfer IndexTree

-- what mounting makes of log2_block_size below 54; from there on it makes 0
def BlockSize (bs : Nat) : Prop := ∃ k < 54, bs = 1024 * 2^k

def splice (first : Mem) (n : Nat) (rest : Mem) : Mem := fun i => if i < n then first i else rest (i - n)

def readByBlocks (env : Env) (fuel : Nat) (st : BasicState) (offset size : Nat) :
    Nat → Nat → World → Mem → Outcome (Nat × World × Mem)
  | 0,_,_,_ => .running
  | turns+1,t,world,buffer =>
    if t < size then
      match ext2ReadInodeData env fuel st (some (view buffer t)) (add64 offset t)
        (min (st.blockSize - add64 offset t % st.blockSize) (size - t)) world with
      | .ret (n,after,some r) =>
        if n = 0 then .ret (t,after,buffer)
        else readByBlocks env fuel st offset size turns (t + n) after (splice buffer t r)
      | .ret (_,_,none) => .fault .nullPointer
      | .fault f => .fault f
      | .running => .running
    else .ret (t,world,buffer)

def Returns (env : Env) (st : BasicState) (offset size : Nat) (world : World) (buffer : Mem) (n : Nat) (after : World)
    (r : Mem) : Prop :=
  ∃ fuel, ∀ k, ext2ReadInodeData env (fuel + k) st (some buffer) offset size world = .ret (n,after,some r)

def ByBlocks (env : Env) (st : BasicState) (offset size t : Nat) (world : World) (buffer : Mem) (n : Nat) (after : World)
    (r : Mem) : Prop :=
  ∃ fuel turns, ∀ j k, readByBlocks env (fuel + j) st offset size (turns + k) t world buffer = .ret (n,after,r)

structure AsFresh (bs offset size : Nat) : Prop where
  blocks : ∀ (env : Env) (st : BasicState) (node : Ext2Inode) (world : World) (buffer : Mem), env.Full → env.Allocates →
    st.blockSize = bs → st.node = some node →
    ∃ n r after last, Returns env st offset size world buffer n after r ∧ ByBlocks env st offset size 0 world buffer n last r
  parts : ∀ (env : Env) (st : BasicState) (node : Ext2Inode) (world : World) (buffer : Mem), env.Full → env.Allocates →
    st.blockSize = bs → st.node = some node → ∀ n m, n + m = size →
    ∃ a r after, Returns env st offset n world buffer a after r ∧
      (a < n → ∃ all, Returns env st offset (n + m) world buffer a all r) ∧
      (a = n → ∃ b q last all, Returns env st (add64 offset n) m after (view r n) b last q ∧
        Returns env st offset (n + m) world buffer (a + b) all (splice r n q))

section Addresses
variable {bs : Nat}

theorem BlockSize.bounds (block : BlockSize bs) : 1024 ≤ bs ∧ bs < 2^64 ∧ bs ∣ 2^64 := by
  obtain ⟨k,low,rfl⟩ := block
  have some : 0 < 2^k := Nat.two_pow_pos k
  have whole : 1024 * 2^k * 2^(54 - k) = 2^64 := by
    rw [Nat.mul_assoc,← Nat.pow_add,Nat.add_sub_cancel' (by omega)]
    norm_num
  have two : 2 ≤ 2^(54 - k) := by
    calc 2 = 2^1 := rfl
      _ ≤ 2^(54 - k) := Nat.pow_le_pow_right (by decide) (by omega)
  have doubled : 1024 * 2^k * 2 ≤ 1024 * 2^k * 2^(54 - k) := Nat.mul_le_mul_left _ two
  exact ⟨by omega,by omega,Dvd.intro _ whole⟩

theorem blockEnd {x top : Nat} (divides : bs ∣ top) (pos : 0 < bs) (before : x < top) : x + (bs - x % bs) ≤ top := by
  obtain ⟨m,rfl⟩ := divides
  have inside : x / bs < m := Nat.div_lt_of_lt_mul before
  have split := Nat.div_add_mod x bs
  have low := Nat.mod_lt x pos
  have reach := Nat.mul_le_mul_left bs inside
  rw [Nat.mul_succ] at reach
  omega

theorem add64Near (divides : bs ∣ 2^64) (pos : 0 < bs) {offset t i n : Nat} (short : n ≤ bs - add64 t offset % bs)
    (low : i < n) : add64 (t + i) offset = add64 t offset + i := by
  have reach := blockEnd divides pos (Nat.mod_lt (t + offset) (by decide))
  unfold add64 at short ⊢
  rw [Nat.add_right_comm,Nat.add_mod,Nat.mod_eq_of_lt (show i < 2^64 by omega),Nat.mod_eq_of_lt (by omega)]

theorem addressNear (divides : bs ∣ 2^64) {block j i : Nat} (inside : j + i < bs) :
    add64 (mul64 block bs) (j + i) = add64 (mul64 block bs) j + i := by
  have whole : bs ∣ mul64 block bs := (Nat.dvd_mod_iff divides).mpr (Nat.dvd_mul_left bs block)
  have below : mul64 block bs < 2^64 := Nat.mod_lt _ (by decide)
  obtain ⟨m,total⟩ := divides
  obtain ⟨c,here⟩ := whole
  have reach : mul64 block bs + bs ≤ 2^64 := by
    rw [here,total,← Nat.mul_succ]
    refine Nat.mul_le_mul_left bs (Nat.lt_of_mul_lt_mul_left (a := bs) ?_)
    omega
  rw [add64Eq (by omega),add64Eq (by omega),Nat.add_assoc]

end Addresses

def address (st : BasicState) (node : Ext2Inode) (image : Mem) (x : Nat) : Option Nat :=
  (resolved st node image (x / st.blockSize)).map fun block => add64 (mul64 block st.blockSize) (x % st.blockSize)

structure Partly (st : BasicState) (node : Ext2Inode) (image : Mem) (offset : Nat) (buffer : Mem) (t : Nat) (r : Mem) :
    Prop where
  got : ∀ i < t, ∃ a, address st node image (add64 i offset) = some a ∧ r i = image a
  rest : ∀ i, t ≤ i → r i = buffer i

structure Fetched (st : BasicState) (node : Ext2Inode) (image : Mem) (offset size : Nat) (buffer : Mem) (n : Nat) (r : Mem) :
    Prop extends Partly st node image offset buffer n r where
  bound : n ≤ size
  short : n < size → address st node image (add64 n offset) = none

section Fetching
variable {st : BasicState} {node : Ext2Inode} {image : Mem} {offset size : Nat}

theorem partlyStart (st : BasicState) (node : Ext2Inode) (image : Mem) (offset : Nat) (buffer : Mem) :
    Partly st node image offset buffer 0 buffer := ⟨fun i low => absurd low (Nat.not_lt_zero i),fun _ _ => rfl⟩

theorem addressNone {x : Nat} : address st node image x = none ↔ resolved st node image (x / st.blockSize) = none := by
  rw [address,Option.map_eq_none_iff]

theorem addressAt (divides : st.blockSize ∣ 2^64) (pos : 0 < st.blockSize) {t i n block : Nat}
    (short : n ≤ st.blockSize - add64 t offset % st.blockSize) (low : i < n)
    (here : resolved st node image (add64 t offset / st.blockSize) = some block) :
    address st node image (add64 (t + i) offset) =
      some (add64 (mul64 block st.blockSize) (add64 t offset % st.blockSize) + i) := by
  obtain ⟨index,inner⟩ := sameBlock short low
  rw [add64Near divides pos short low,address,index,here,inner,Option.map_some,addressNear divides (by omega)]

theorem fetchedUnique {buffer : Mem} {n m : Nat} {r q : Mem} (left : Fetched st node image offset size buffer n r)
    (right : Fetched st node image offset size buffer m q) : n = m ∧ r = q := by
  have least {n m : Nat} {r q : Mem} (left : Fetched st node image offset size buffer n r)
      (right : Fetched st node image offset size buffer m q) : m ≤ n := by
    by_contra more
    obtain ⟨a,here,_⟩ := right.got n (by omega)
    rw [left.short (by have := right.bound; omega)] at here
    cases here
  have same : n = m := Nat.le_antisymm (least right left) (least left right)
  subst same
  refine ⟨rfl,funext fun i => ?_⟩
  by_cases inside : i < n
  · obtain ⟨a,here,byte⟩ := left.got i inside
    obtain ⟨b,there,other⟩ := right.got i inside
    cases here.symm.trans there
    rw [byte,other]
  · rw [left.rest i (by omega),right.rest i (by omega)]

theorem partlyNext (divides : st.blockSize ∣ 2^64) (pos : 0 < st.blockSize) {buffer r : Mem} {t n block : Nat}
    (part : Partly st node image offset buffer t r) (short : n ≤ st.blockSize - add64 t offset % st.blockSize)
    (here : resolved st node image (add64 t offset / st.blockSize) = some block) :
    Partly st node image offset buffer (t + n)
      (patch r t n (view image (add64 (mul64 block st.blockSize) (add64 t offset % st.blockSize)))) := by
  constructor
  · intro i below
    by_cases old : i < t
    · rw [patchOutside (.inl old)]
      exact part.got i old
    · have near := addressAt divides pos (i := i - t) short (by omega) here
      rw [Nat.add_sub_cancel' (by omega)] at near
      exact ⟨_,near,by rw [patchInside (by omega) below]; rfl⟩
  · intro i beyond
    rw [patchOutside (.inr beyond)]
    exact part.rest i (by omega)

end Fetching

/- No index is reached after one of a higher level, the direct ones apart. -/
def Climbs (bs offset size : Nat) : Prop := ∀ t u, t ≤ u → u < size → 12 ≤ add64 u offset / bs →
  (place bs (add64 t offset / bs)).rank ≤ (place bs (add64 u offset / bs)).rank

structure Ready (env : Env) (st : BasicState) (node : Ext2Inode) (image : Mem) (offset size : Nat) (w : Walk Mem) :
    Prop where
  cached : Cached env st node image (fun _ t => t < 2^32) w
  disk : w.world.disk = image
  rooted : ∀ u, w.traversed ≤ u → u < size → 12 ≤ indexAt st offset u →
    RootedFrom (roots node) (place st.blockSize (indexAt st offset u)).rank (homes node w)

section Walking
variable {env : Env} {st : BasicState} {node : Ext2Inode} {image : Mem} {offset size limit : Nat}

theorem readyStart (world : World) (buffer : Mem) :
    Ready env st node world.disk offset size (.start world buffer) :=
  ⟨startCached node world buffer (keptRefl env st world.disk _),rfl,fun _ _ _ _ => rootedNone _ _⟩

theorem placeDirectIff (bs b : Nat) : 0 < (place bs b).rank ↔ 12 ≤ b := by
  rw [placeRank]
  split_ifs <;> omega

theorem readyVisit (climbs : Climbs st.blockSize offset limit) {w found : Walk Mem} {block : Nat}
    (ready : Ready env st node image offset limit w) (more : w.traversed < limit)
    (cached : Cached env st node image (fun _ t => t < 2^32) found) (same : Same w found)
    (led : Resolves (roots node) (Reads env st image) (homes node w)
      (place st.blockSize (indexAt st offset w.traversed)) (.found block (homes node found)))
    {world : World} (disk : world.disk = found.world.disk) (data : Mem) {n : Nat} (later : w.traversed ≤ n) :
    Ready env st node image offset limit { found with world := world, data := data, traversed := n } := by
  refine ⟨cachedVisit cached (by rw [disk]; exact cached.kept) _ _,disk.trans (same.1.trans ready.disk),
    fun u reach inside high => ?_⟩
  have old := ready.rooted u (later.trans reach) inside high
  by_cases indirect : 12 ≤ indexAt st offset w.traversed
  · have rooted := ready.rooted w.traversed le_rfl more indirect
    exact rootedMono (resolvesRooted rooted led) (climbs w.traversed u (later.trans reach) inside high)
  · have direct : place st.blockSize (indexAt st offset w.traversed) = .direct (indexAt st offset w.traversed) :=
      placeDirect (by omega)
    rw [direct] at led
    rcases led with ⟨_,other⟩ | ⟨_,result⟩
    · cases other
    · injection result with _ kept
      change RootedFrom _ _ (homes node found)
      rw [kept]
      exact old

theorem jankMod (st : BasicState) (offset t : Nat) : jankAt st offset t = add64 t offset % st.blockSize := by
  unfold jankAt indexAt
  rw [Nat.mul_comm,Nat.mod_eq_sub_mul_div]

theorem readVisited (full : env.Full) (sized : 4 ≤ st.blockSize) (short : size < 2^64) {w found : Walk Mem} {block : Nat}
    (more : w.traversed < size)
    (run : findBlock env st node (readClient env st size) (indexAt st offset w.traversed) w = .next block found)
    (same : Same w found) : ∃ world, world.disk = found.world.disk ∧
      traverseStep env st node (readClient env st size) offset w = .next () { found with
        world := world
        data := patch w.data w.traversed (copySize st offset size w.traversed)
          (view w.world.disk (add64 (mul64 block st.blockSize) (jankAt st offset w.traversed)))
        traversed := w.traversed + copySize st offset size w.traversed } := by
  have step := stepFound sized run
  have count : ((readClient env st size).visit found.world found.data block found.traversed
      (jankAt st offset w.traversed)).1 = copySize st offset size w.traversed := by
    rw [same.2.2]
    exact Nat.min_eq_left (full _ _ _)
  have bytes : ((readClient env st size).visit found.world found.data block found.traversed
      (jankAt st offset w.traversed)).2.2 = patch w.data w.traversed (copySize st offset size w.traversed)
        (view w.world.disk (add64 (mul64 block st.blockSize) (jankAt st offset w.traversed))) := by
    rw [← count,← same.1,← same.2.1,← same.2.2]
    rfl
  have within : copySize st offset size w.traversed ≤ size - w.traversed := Nat.min_le_right _ _
  have moved : add64 found.traversed (copySize st offset size w.traversed) =
      w.traversed + copySize st offset size w.traversed := by
    rw [same.2.2]
    exact add64Eq (by omega)
  refine ⟨((readClient env st size).visit found.world found.data block found.traversed (jankAt st offset w.traversed)).2.1,
    rfl,?_⟩
  rw [step,← bytes,← moved,← count]
  rfl

theorem readyTurn (full : env.Full) (allocates : env.Allocates) (sized : 4 ≤ st.blockSize)
    (climbs : Climbs st.blockSize offset limit) (within : limit ≤ size) (short : size < 2^64) {w : Walk Mem}
    (ready : Ready env st node image offset limit w) (more : w.traversed < limit) :
    (∃ block after, resolved st node image (indexAt st offset w.traversed) = some block ∧
      traverseStep env st node (readClient env st size) offset w = .next () after ∧
      Ready env st node image offset limit after ∧ after.traversed = w.traversed + copySize st offset size w.traversed ∧
      after.data = patch w.data w.traversed (copySize st offset size w.traversed)
        (view image (add64 (mul64 block st.blockSize) (jankAt st offset w.traversed)))) ∨
    (∃ e, resolved st node image (indexAt st offset w.traversed) = none ∧
      traverseStep env st node (readClient env st size) offset w = .exit e ∧ e.data = w.data ∧
      e.traversed = w.traversed) := by
  obtain ⟨block,last,there,found,cached,same,_,led⟩ | ⟨last,gone,ended,kept,count⟩ := findBlockCases
    (readSetting full.stable st node image size) full allocates sized ready.cached
    fun indirect => ready.rooted w.traversed le_rfl more ((placeDirectIff _ _).mp indirect)
  · obtain ⟨world,disk,step⟩ := readVisited full sized short (Nat.lt_of_lt_of_le more within) found same
    rw [ready.disk] at step
    exact .inl ⟨block,_,there,step,readyVisit climbs ready more cached same led disk _ (Nat.le_add_right _ _),rfl,rfl⟩
  · exact .inr ⟨last,gone,stepExit sized ended,kept,count⟩

theorem readyReaches (full : env.Full) (allocates : env.Allocates) (block : BlockSize st.blockSize)
    (climbs : Climbs st.blockSize offset limit) (within : limit ≤ size) (short : size < 2^64) {w : Walk Mem} {buffer : Mem}
    (ready : Ready env st node image offset limit w) (reading : Reading env st node image offset size w)
    (part : Partly st node image offset buffer w.traversed w.data) (bound : w.traversed ≤ size) : ∃ fuel,
      (∃ e, traverseLoop env st node (readClient env st size) offset size fuel w = .exit e ∧ e.traversed < limit ∧
        Fetched st node image offset size buffer e.traversed e.data) ∨
      ∃ u, (∀ k, traverseLoop env st node (readClient env st size) offset size (fuel + k) w =
          traverseLoop env st node (readClient env st size) offset size k u) ∧
        limit ≤ u.traversed ∧ u.traversed ≤ size ∧ Ready env st node image offset limit u ∧
        Reading env st node image offset size u ∧ Partly st node image offset buffer u.traversed u.data := by
  obtain ⟨large,_,divides⟩ := block.bounds
  induction left : size - w.traversed using Nat.strong_induction_on generalizing w with
  | _ left ih =>
    by_cases before : w.traversed < limit
    · have more : w.traversed < size := Nat.lt_of_lt_of_le before within
      obtain ⟨found,after,here,step,next,count,bytes⟩ | ⟨e,none,step,data,count⟩ :=
        readyTurn full allocates (by omega) climbs within short ready before
      · have low : copySize st offset size w.traversed ≤ st.blockSize - add64 w.traversed offset % st.blockSize := by
          rw [← jankMod]
          exact Nat.min_le_left _ _
        have inside : copySize st offset size w.traversed ≤ size - w.traversed := Nat.min_le_right _ _
        have some : 0 < copySize st offset size w.traversed := by
          have inner := Nat.mod_lt (add64 w.traversed offset) (show 0 < st.blockSize by omega)
          rw [copySize,jankMod]
          omega
        have grown := partlyNext divides (by omega) part low here
        rw [← jankMod,← bytes,← count] at grown
        have turn (k : Nat) : traverseLoop env st node (readClient env st size) offset size (k + 1) w =
            traverseLoop env st node (readClient env st size) offset size k after := by
          rw [traverseLoop,if_pos more,step]
          rfl
        obtain ⟨fuel,⟨e,run,ended⟩ | ⟨u,run,reached⟩⟩ := ih _ (by rw [count]; omega) next
          (readingStep full.stable reading more step) grown (by rw [count]; omega) rfl
        · exact ⟨fuel + 1,.inl ⟨e,(turn fuel).trans run,ended⟩⟩
        · refine ⟨fuel + 1,.inr ⟨u,fun k => ?_,reached⟩⟩
          rw [Nat.add_right_comm,turn]
          exact run k
      · refine ⟨1,.inl ⟨e,?_,by rwa [count],?_⟩⟩
        · rw [traverseLoop,if_pos more,step]
          rfl
        · rw [data,count]
          exact ⟨part,bound,fun _ => addressNone.mpr none⟩
    · exact ⟨0,.inr ⟨w,fun k => by rw [Nat.zero_add],Nat.le_of_not_lt before,bound,ready,reading,part⟩⟩

theorem readyEnds (node : Ext2Inode) (full : env.Full) (allocates : env.Allocates) (block : BlockSize st.blockSize)
    (climbs : Climbs st.blockSize offset size) (short : size < 2^64) (world : World) (buffer : Mem) : ∃ fuel e,
      traverseLoop env st node (readClient env st size) offset size fuel (.start world buffer) = .exit e ∧
      Fetched st node world.disk offset size buffer e.traversed e.data ∧
      (e.traversed = size → Ready env st node world.disk offset size e) := by
  obtain ⟨fuel,⟨e,run,less,fetched⟩ | ⟨u,run,reached,bound,ready,_,part⟩⟩ := readyReaches full allocates block climbs le_rfl
    short (readyStart world buffer) (readingStart world buffer offset size)
    (partlyStart _ _ _ _ buffer) (Nat.zero_le size)
  · exact ⟨fuel,e,run,fetched,fun whole => absurd whole (Nat.ne_of_lt less)⟩
  · refine ⟨fuel + 1,u,?_,⟨part,bound,fun less => absurd less (Nat.not_lt_of_le reached)⟩,fun _ => ready⟩
    rw [run 1,traverseLoop,if_neg (Nat.not_lt_of_le reached)]

theorem readFetched (full : env.Full) (allocates : env.Allocates) (block : BlockSize st.blockSize)
    (held : st.node = some node) (climbs : Climbs st.blockSize offset size) (short : size < 2^64) (world : World)
    (buffer : Mem) : ∃ n r after, Returns env st offset size world buffer n after r ∧
      Fetched st node world.disk offset size buffer n r ∧ (n = size → after.disk = world.disk) := by
  by_cases empty : size = 0
  · subst empty
    have whole : Fetched st node world.disk offset 0 buffer 0 buffer :=
      ⟨partlyStart _ _ _ _ buffer,Nat.le_refl 0,fun less => absurd less (Nat.lt_irrefl 0)⟩
    exact ⟨0,buffer,world,⟨0,fun k => rfl⟩,whole,fun _ => rfl⟩
  · obtain ⟨fuel,e,run,fetched,last⟩ := readyEnds node full allocates block climbs short world buffer
    refine ⟨e.traversed,e.data,traverseExit env st node e,⟨fuel,fun k => ?_⟩,fetched,fun whole => ?_⟩
    · rw [readInodeDataEq held (fuel + k) buffer offset empty world,loopMore run k]
    · have ready := last whole
      exact (exitKeeps (readSetting full.stable st node world.disk size) ready.cached).trans ready.disk

theorem add64Shift (offset t i : Nat) : add64 i (add64 offset t) = add64 (t + i) offset := by
  unfold add64
  omega

theorem blockClimbs {bs x n : Nat} (divides : bs ∣ 2^64) (pos : 0 < bs) (below : x < 2^64) (inside : n ≤ bs - x % bs) :
    Climbs bs x n := by
  have start : add64 0 x = x := by
    rw [add64,Nat.zero_add]
    exact Nat.mod_eq_of_lt below
  have index {t : Nat} (low : t < n) : add64 t x / bs = x / bs := by
    have short : n ≤ bs - add64 0 x % bs := by rwa [start]
    have near := add64Near (t := 0) divides pos short low
    rw [Nat.zero_add,start] at near
    rw [near]
    exact (sameBlock inside low).1
  intro t u le low _
  rw [index (Nat.lt_of_le_of_lt le low),index low]

theorem chunkFetched (block : BlockSize st.blockSize) {t n m : Nat} {buffer r : Mem}
    (short : n ≤ st.blockSize - add64 t offset % st.blockSize)
    (fetched : Fetched st node image (add64 offset t) n buffer m r) :
    (m = 0 ∧ (0 < n → resolved st node image (add64 t offset / st.blockSize) = none)) ∨
      (m = n ∧ ∃ block, resolved st node image (add64 t offset / st.blockSize) = some block ∧
        r = patch buffer 0 n (view image (add64 (mul64 block st.blockSize) (add64 t offset % st.blockSize)))) := by
  obtain ⟨large,_,divides⟩ := block.bounds
  have near {i : Nat} (low : i < n) (block : Nat)
      (here : resolved st node image (add64 t offset / st.blockSize) = some block) :
      address st node image (add64 i (add64 offset t)) =
        some (add64 (mul64 block st.blockSize) (add64 t offset % st.blockSize) + i) := by
    rw [add64Shift]
    exact addressAt divides (by omega) short low here
  have first : add64 0 (add64 offset t) = add64 t offset := add64Shift offset t 0
  by_cases none : m = 0
  · subst none
    refine .inl ⟨rfl,fun some => ?_⟩
    have missing := fetched.short some
    rw [first] at missing
    exact addressNone.mp missing
  · obtain ⟨a,here,_⟩ := fetched.got 0 (Nat.pos_of_ne_zero none)
    rw [first,address,Option.map_eq_some_iff] at here
    obtain ⟨block,here,_⟩ := here
    have whole : m = n := by
      refine Nat.le_antisymm fetched.bound (Nat.le_of_not_lt fun less => ?_)
      have missing := fetched.short less
      rw [near less block here] at missing
      cases missing
    subst whole
    refine .inr ⟨rfl,block,here,funext fun i => ?_⟩
    by_cases inside : i < m
    · obtain ⟨a,at_,byte⟩ := fetched.got i inside
      rw [near inside block here] at at_
      cases at_
      rw [byte,patchInside (Nat.zero_le i) (by omega)]
      rfl
    · rw [fetched.rest i (by omega),patchOutside (by omega)]

theorem splicePatch (buffer src : Mem) (t n : Nat) :
    splice buffer t (patch (view buffer t) 0 n src) = patch buffer t n src := by
  funext i
  unfold splice
  by_cases old : i < t
  · rw [if_pos old,patchOutside (.inl old)]
  · rw [if_neg old]
    by_cases inside : i < t + n
    · rw [patchInside (Nat.zero_le _) (by omega),patchInside (by omega) inside,Nat.sub_zero]
    · rw [patchOutside (by omega),patchOutside (by omega),viewApply,Nat.add_sub_cancel' (by omega)]

theorem blocksFetched (full : env.Full) (allocates : env.Allocates) (block : BlockSize st.blockSize)
    (held : st.node = some node) (short : size < 2^64) {buffer : Mem} {t : Nat} {world : World} {r : Mem}
    (disk : world.disk = image) (part : Partly st node image offset buffer t r) (bound : t ≤ size) :
    ∃ n q after, ByBlocks env st offset size t world r n after q ∧ Fetched st node image offset size buffer n q := by
  obtain ⟨large,_,divides⟩ := block.bounds
  induction left : size - t using Nat.strong_induction_on generalizing t world r with
  | _ left ih =>
    by_cases more : t < size
    · have swap : add64 offset t = add64 t offset := congrArg (· % 2^64) (Nat.add_comm offset t)
      have inside := Nat.mod_lt (add64 t offset) (show 0 < st.blockSize by omega)
      have low : min (st.blockSize - add64 offset t % st.blockSize) (size - t) ≤
          st.blockSize - add64 t offset % st.blockSize := by
        rw [swap]
        exact Nat.min_le_left _ _
      have some : 0 < min (st.blockSize - add64 offset t % st.blockSize) (size - t) := by
        rw [swap]
        omega
      have within : min (st.blockSize - add64 offset t % st.blockSize) (size - t) ≤ size - t := Nat.min_le_right _ _
      have climbs : Climbs st.blockSize (add64 offset t) (min (st.blockSize - add64 offset t % st.blockSize) (size - t)) :=
        blockClimbs divides (by omega) (Nat.mod_lt _ (by decide)) (by rwa [swap] at low ⊢)
      obtain ⟨m,q,after,⟨fuel,returns⟩,fetched,kept⟩ := readFetched full allocates block held climbs
        (Nat.lt_of_le_of_lt (within.trans (Nat.sub_le _ _)) short) world (view r t)
      rw [disk] at fetched kept
      obtain ⟨rfl,none⟩ | ⟨rfl,found,here,bytes⟩ := chunkFetched block low fetched
      · refine ⟨t,r,after,⟨fuel,1,fun j k => ?_⟩,part,bound,fun _ => addressNone.mpr (none some)⟩
        rw [Nat.add_comm 1 k,readByBlocks,if_pos more]
        simp only [returns j,if_true]
      · have grown := partlyNext divides (by omega) part low here
        rw [← splicePatch,← bytes] at grown
        obtain ⟨n,last,final,⟨more_,turns,run⟩,fetched⟩ := ih _ (by omega) (kept rfl) grown (by omega) rfl
        refine ⟨n,last,final,⟨fuel + more_,turns + 1,fun j k => ?_⟩,fetched⟩
        have rest := run (fuel + j) k
        rw [show more_ + (fuel + j) = fuel + more_ + j by omega] at rest
        rw [Nat.add_right_comm turns 1 k,readByBlocks,if_pos more,Nat.add_assoc fuel more_ j]
        simp only [returns (more_ + j),if_neg (Nat.ne_of_gt some)]
        rw [← Nat.add_assoc]
        exact rest
    · refine ⟨t,r,world,⟨0,1,fun j k => ?_⟩,part,bound,fun less => absurd less more⟩
      rw [Nat.add_comm 1 k,readByBlocks,if_neg more]

theorem byBlocksUnique {t n m : Nat} {world a b : World} {buffer r q : Mem}
    (left : ByBlocks env st offset size t world buffer n a r) (right : ByBlocks env st offset size t world buffer m b q) :
    n = m ∧ r = q := by
  obtain ⟨f,turns,left⟩ := left
  obtain ⟨g,others,right⟩ := right
  have first := left g others
  have second := right f turns
  rw [Nat.add_comm g f,Nat.add_comm others turns] at second
  cases first.symm.trans second
  exact ⟨rfl,rfl⟩

theorem readingKept (full : env.Full) (short : size < 2^64) {w after : Walk Mem}
    (reading : Reading env st node image offset size w) (more : w.traversed < size)
    (step : traverseStep env st node (readClient env st size) offset w = .next () after) :
    w.traversed ≤ after.traversed ∧ after.traversed ≤ size ∧ ∀ i < w.traversed, after.data i = w.data i := by
  obtain ⟨_,block,found,run,rfl⟩ := stepNext step
  obtain ⟨_,⟨_,data,count⟩,_⟩ := findBlockNext (readSetting full.stable st node image size) reading.cached run
  have within : ((readClient env st size).visit found.world found.data block found.traversed (blockJank st offset w)).1 ≤
      size - found.traversed := (Nat.min_le_left _ _).trans (Nat.min_le_right _ _)
  have moved := add64Eq (show found.traversed + ((readClient env st size).visit found.world found.data block found.traversed
    (blockJank st offset w)).1 < 2^64 by omega)
  refine ⟨?_,?_,fun i low => ?_⟩
  · change w.traversed ≤ add64 found.traversed _
    rw [moved]
    omega
  · change add64 found.traversed _ ≤ size
    rw [moved]
    omega
  · change patch found.data found.traversed _ _ i = w.data i
    rw [patchOutside (.inl (by omega)),data]

theorem readingLast (full : env.Full) (short : size < 2^64) {fuel : Nat} {w e : Walk Mem}
    (reading : Reading env st node image offset size w) (bound : w.traversed ≤ size)
    (ended : traverseLoop env st node (readClient env st size) offset size fuel w = .exit e) :
    w.traversed ≤ e.traversed ∧ ∀ i < w.traversed, e.data i = w.data i := by
  obtain ⟨last,⟨reading,reach,_,kept⟩,⟨_,rfl⟩ | ⟨_,exit⟩⟩ := traverseLoopRule
    (P := fun u => Reading env st node image offset size u ∧ w.traversed ≤ u.traversed ∧ u.traversed ≤ size ∧
      ∀ i < w.traversed, u.data i = w.data i)
    (fun u after holds more step => by
      obtain ⟨now,reach,_,kept⟩ := holds
      obtain ⟨up,within,same⟩ := readingKept full short now more step
      exact ⟨readingStep full.stable now more step,reach.trans up,within,fun i low =>
        (same i (Nat.lt_of_lt_of_le low reach)).trans (kept i low)⟩)
    ⟨reading,le_rfl,bound,fun _ _ => rfl⟩ ended
  · exact ⟨reach,kept⟩
  · obtain ⟨data,count⟩ := findBlockExit (readSetting full.stable st node image size) reading.cached exit
    rw [data,count]
    exact ⟨reach,kept⟩

end Walking

def Near (bs offset size : Nat) : Prop := offset + size ≤ 2^64 + 12 * bs ∨ 2^32 ≤ bs

theorem nearClimbs {bs offset size : Nat} (block : BlockSize bs) (below : offset < 2^64) (short : size < 2^64)
    (near : Near bs offset size) : Climbs bs offset size := by
  obtain ⟨large,_,_⟩ := block.bounds
  intro t u le inside high
  rcases near with near | wide
  · have ahead : u + offset < 2^64 := by
      by_contra round
      have wrapped : add64 u offset = u + offset - 2^64 := by
        unfold add64
        omega
      have low : add64 u offset / bs < 12 := Nat.div_lt_of_lt_mul (by rw [wrapped,Nat.mul_comm]; omega)
      omega
    refine placeRankMono (Nat.div_le_div_right ?_)
    rw [add64Eq ahead,add64Eq (by omega)]
    omega
  · have single (x : Nat) : (place bs (add64 x offset / bs)).rank ≤ 1 := by
      have short : add64 x offset / bs - 12 < bs := by
        have inside : add64 x offset / bs < bs := by
          refine Nat.div_lt_of_lt_mul ?_
          calc add64 x offset < 2^64 := Nat.mod_lt _ (by decide)
            _ = 2^32 * 2^32 := by norm_num
            _ ≤ bs * bs := Nat.mul_le_mul wide wide
        omega
      rw [placeRank,if_pos (Nat.div_eq_of_lt short)]
      split <;> omega
    exact (single t).trans ((placeDirectIff _ _).mpr high)

theorem nearFirst {bs offset n m : Nat} (near : Near bs offset (n + m)) : Near bs offset n :=
  near.imp (fun reach => by omega) id

theorem nearSecond {bs offset n m : Nat} (below : offset < 2^64) (short : n + m < 2^64) (near : Near bs offset (n + m)) :
    Near bs (add64 offset n) m := by
  refine near.imp (fun reach => ?_) id
  unfold add64
  omega

theorem fetchedAppend {st : BasicState} {node : Ext2Inode} {image : Mem} {offset n m b : Nat} {buffer r q : Mem}
    (first : Fetched st node image offset n buffer n r)
    (second : Fetched st node image (add64 offset n) m (view r n) b q) :
    Fetched st node image offset (n + m) buffer (n + b) (splice r n q) := by
  refine ⟨⟨fun i low => ?_,fun i beyond => ?_⟩,Nat.add_le_add_left second.bound n,fun less => ?_⟩
  · unfold splice
    by_cases early : i < n
    · rw [if_pos early]
      exact first.got i early
    · rw [if_neg early]
      have got := second.got (i - n) (by omega)
      rwa [add64Shift,Nat.add_sub_cancel' (by omega)] at got
  · have byte := second.rest (i - n) (by omega)
    unfold splice
    rw [if_neg (by omega),byte,viewApply,Nat.add_sub_cancel' (by omega)]
    exact first.rest i (by omega)
  · rw [← add64Shift]
    exact second.short (by omega)

theorem nearAsFresh {bs offset size : Nat} (block : BlockSize bs) (below : offset < 2^64) (short : size < 2^64)
    (near : Near bs offset size) : AsFresh bs offset size := by
  constructor
  · rintro env st node world buffer full allocates rfl held
    have climbs := nearClimbs block below short near
    obtain ⟨n,r,after,returns,fetched,_⟩ := readFetched full allocates block held climbs short world buffer
    obtain ⟨m,q,last,blocks,other⟩ := blocksFetched full allocates block held short rfl
      (partlyStart _ _ _ _ buffer) (Nat.zero_le size)
    obtain ⟨rfl,rfl⟩ := fetchedUnique fetched other
    exact ⟨n,r,after,last,returns,blocks⟩
  · rintro env st node world buffer full allocates rfl held n m rfl
    have climbs := nearClimbs block below short near
    obtain ⟨c,whole,all,returns,fetched,_⟩ := readFetched full allocates block held climbs short world buffer
    have climbsFirst := nearClimbs block below (by omega) (nearFirst near)
    obtain ⟨a,r,after,first,left,kept⟩ := readFetched full allocates block held climbsFirst (by omega) world buffer
    refine ⟨a,r,after,first,fun less => ?_,?_⟩
    · have cut : Fetched st node world.disk offset (n + m) buffer a r :=
        ⟨left.toPartly,left.bound.trans (Nat.le_add_right n m),fun _ => left.short less⟩
      obtain ⟨rfl,rfl⟩ := fetchedUnique fetched cut
      exact ⟨all,returns⟩
    · rintro rfl
      have climbsSecond := nearClimbs block (Nat.mod_lt _ (by decide)) (by omega) (nearSecond below short near)
      obtain ⟨b,q,last,second,right,_⟩ := readFetched full allocates block held climbsSecond (by omega) after (view r a)
      rw [kept rfl] at right
      obtain ⟨rfl,rfl⟩ := fetchedUnique fetched (fetchedAppend left right)
      exact ⟨b,q,last,all,second,returns⟩

/-! A range that comes round. Every table names itself, block 2 under sibp and block 1
elsewhere: index 12 is block 2, but block 1 by a table cached before. -/

def stripes (bs : Nat) : Mem := fun a => if a % 4 = 0 then if a / bs = 2 then 2 else 1 else 0

def twoTables : Ext2Inode := ⟨0,0,fun _ => 1,2,1,1⟩

def striped (bs : Nat) : BasicState := ⟨some twoTables,0,bs,1⟩

def Stripe (t : Nat) : Prop := t = 1 ∨ t = 2

structure Rounding (h : Homes) : Prop where
  single : ∀ t, h .single = some t → Stripe t
  double : ∀ t, h .double = some t → t = 1
  triple : ∀ t, h .triple = some t → t = 1

section Stripes
variable {bs : Nat}

theorem stripeAligned (block : BlockSize bs) (t i : Nat) : (t * bs + 4 * i) % 4 = 0 := by
  obtain ⟨k,_,rfl⟩ := block
  rw [show t * (1024 * 2^k) + 4 * i = 4 * (t * (256 * 2^k) + i) by ring,Nat.mul_mod_right]

theorem stripeFirst (block : BlockSize bs) {t i : Nat} (stripe : Stripe t) (inside : i < bs / 4) :
    (stripes bs (t * bs + 4 * i)).toNat = t := by
  have index : (t * bs + 4 * i) / bs = t := by
    rw [Nat.mul_comm t,Nat.mul_add_div (by omega),Nat.div_eq_of_lt (by omega),Nat.add_zero]
  rw [stripes,if_pos (stripeAligned block t i),index]
  rcases stripe with rfl | rfl <;> rfl

theorem stripeBase (small : bs < 2^32) {t : Nat} (stripe : Stripe t) : mul64 t bs = t * bs := by
  refine blockAddr (Nat.le_of_lt small) ?_
  rcases stripe with rfl | rfl <;> decide

theorem stripeEntry (block : BlockSize bs) (small : bs < 2^32) {t i : Nat} (stripe : Stripe t) (inside : i < bs / 4) :
    entryAt (striped bs) (stripes bs) t i = t := by
  have base : addr (striped bs) t = t * bs := stripeBase small stripe
  have aligned := stripeAligned block t i
  have zero (j : Nat) (low : 1 ≤ j) (high : j < 4) : stripes bs (t * bs + 4 * i + j) = 0 := if_neg (by omega)
  rw [entryAt,base,le32,le16,le16,stripeFirst block stripe inside,zero 1 (by decide) (by decide),
    zero 2 (by decide) (by decide),Nat.add_assoc _ 2 1,zero 3 (by decide) (by decide)]
  rfl

theorem stripeHead (block : BlockSize bs) (small : bs < 2^32) {t : Nat} (stripe : Stripe t) :
    (stripes bs (add64 (mul64 t bs) 0)).toNat = t := by
  obtain ⟨large,_,_⟩ := block.bounds
  have below : t * bs < 2^64 := by
    rw [← stripeBase small stripe]
    exact Nat.mod_lt _ (by decide)
  have first := stripeFirst block (i := 0) stripe (by omega)
  rwa [stripeBase small stripe,add64Eq (by omega)]

theorem stripeBelow (block : BlockSize bs) (small : bs < 2^32) {t i : Nat} (stripe : Stripe t) (inside : i < bs / 4)
    {next : Nat → Result → Prop} {r : Result} (led : next t r) :
    entryOf (Exactly (striped bs) (stripes bs)) t i next r := by
  refine ⟨t,⟨inside,(stripeEntry block small stripe inside).symm⟩,.inr ⟨?_,led⟩⟩
  rcases stripe with rfl | rfl <;> decide

theorem stripeTop (kept : Option Nat) {pointer : Nat} (nonzero : pointer ≠ 0) : ∃ t, (t = pointer ∨ kept = some t) ∧
    ∀ (next : Nat → Result → Prop) r, next t r → topOf kept pointer next r := by
  cases kept with
  | none => exact ⟨pointer,.inl rfl,fun next r led => .inr ⟨nonzero,led⟩⟩
  | some t => exact ⟨t,.inr rfl,fun next r led => led⟩

theorem stripeFound (block : BlockSize bs) (small : bs < 2^32) {q : Path} (within : q.Within 12 (bs / 4)) {h : Homes}
    (rounding : Rounding h) : ∃ b after,
      Resolves (roots twoTables) (Exactly (striped bs) (stripes bs)) h q (.found b after) ∧ Rounding after ∧
      (q.rank = 0 → after = h) ∧ (2 ≤ q.rank → after .single = some 1) := by
  have one : Stripe 1 := .inl rfl
  cases q with
  | direct i =>
    have some : (roots twoTables).direct i ≠ 0 := Nat.one_ne_zero
    exact ⟨1,h,.inr ⟨some,rfl⟩,rounding,fun _ => rfl,fun deep => absurd deep (Nat.not_succ_le_zero 1)⟩
  | single i =>
    obtain ⟨t,from_,top⟩ := stripeTop (h .single) (show 2 ≠ 0 by decide)
    have stripe : Stripe t := from_.elim .inr (rounding.single t)
    refine ⟨t,Function.update h .single (some t),top _ _ (stripeBelow block small stripe within rfl),?_,nofun,
      fun deep => absurd deep (Nat.not_succ_le_self 1)⟩
    refine ⟨fun u here => ?_,rounding.double,rounding.triple⟩
    cases here
    exact stripe
  | double i j =>
    obtain ⟨t,from_,top⟩ := stripeTop (h .double) (show 1 ≠ 0 by decide)
    obtain rfl : t = 1 := from_.elim id (rounding.double t)
    refine ⟨1,Function.update (Function.update h .double (some 1)) .single (some 1),
      top _ _ (stripeBelow block small one within.1 (stripeBelow block small one within.2 rfl)),?_,nofun,fun _ => rfl⟩
    refine ⟨fun u here => ?_,fun u here => ?_,rounding.triple⟩
    · cases here
      exact one
    · cases here
      rfl
  | triple i j k =>
    obtain ⟨t,from_,top⟩ := stripeTop (h .triple) (show 1 ≠ 0 by decide)
    obtain rfl : t = 1 := from_.elim id (rounding.triple t)
    refine ⟨1,Function.update (Function.update (Function.update h .triple (some 1)) .double (some 1)) .single (some 1),
      top _ _ (stripeBelow block small one within.1 (stripeBelow block small one within.2.1
        (stripeBelow block small one within.2.2 rfl))),?_,nofun,fun _ => rfl⟩
    refine ⟨fun u here => ?_,fun u here => ?_,fun u here => ?_⟩
    · cases here
      exact one
    · cases here
      rfl
    · cases here
      rfl

variable {offset size : Nat}

theorem deepRank {x : Nat} (block : BlockSize bs) (small : bs < 2^32) (late : 2^64 ≤ x + bs) :
    2 ≤ (place bs (x / bs)).rank := by
  obtain ⟨k,_,rfl⟩ := block
  have power : 1024 * 2^k = 2^(10 + k) := by rw [Nat.pow_add]
  have low : 10 + k < 32 := (Nat.pow_lt_pow_iff_right (by decide)).mp (power ▸ small)
  have most : 1024 * 2^k ≤ 2^31 := by
    rw [power]
    exact Nat.pow_le_pow_right (by decide) (by omega)
  have pos : 0 < 1024 * 2^k := by positivity
  generalize 1024 * 2^k = bs at most pos late
  have square : bs * (bs + 12) ≤ 2^31 * (2^31 + 12) := Nat.mul_le_mul most (by omega)
  have far : bs + 12 ≤ x / bs := by
    refine (Nat.le_div_iff_mul_le pos).mpr ?_
    rw [Nat.mul_comm]
    omega
  have past : 1 ≤ (x / bs - 12) / bs := (Nat.le_div_iff_mul_le pos).mpr (by omega)
  rw [placeRank,if_neg (by omega),if_neg (by omega)]
  split <;> omega

theorem roundTrail (block : BlockSize bs) (small : bs < 2^32) (below : offset < 2^64) (short : size < 2^64)
    (far : 2^64 + 12 * bs < offset + size) {t : Nat} {h : Homes}
    (trail : Trail (striped bs) twoTables (Exactly (striped bs) (stripes bs))
      (fun _ => copySize (striped bs) offset size) offset size t h) (rounding : Rounding h)
    (reach : offset + t ≤ 2^64 + 12 * bs) (round : 2^64 ≤ offset + t → h .single = some 1) :
    ∃ last, Trail (striped bs) twoTables (Exactly (striped bs) (stripes bs))
      (fun _ => copySize (striped bs) offset size) offset size (2^64 + 12 * bs - offset) last ∧
      last .single = some 1 := by
  obtain ⟨large,_,divides⟩ := block.bounds
  induction left : 2^64 + 12 * bs - (offset + t) using Nat.strong_induction_on generalizing t h with
  | _ left ih =>
    by_cases more : offset + t < 2^64 + 12 * bs
    · have inside : t < size := by omega
      obtain ⟨b,after,led,next,direct,deep⟩ := stripeFound block small
        (placeWithin bs (indexAt (striped bs) offset t) (by omega)) rounding
      have stepped := Trail.step trail inside led
      have jank : jankAt (striped bs) offset t = (offset + t) % bs := by
        rw [jankMod,add64,Nat.add_comm t]
        exact Nat.mod_mod_of_dvd _ divides
      have ends := blockEnd ((Nat.dvd_add_right divides).mpr (Nat.dvd_mul_left bs 12)) (by omega) more
      have low : copySize (striped bs) offset size t ≤ bs - (offset + t) % bs := by
        rw [← jank]
        exact Nat.min_le_left _ _
      have within : copySize (striped bs) offset size t ≤ size - t := Nat.min_le_right _ _
      have some : 0 < copySize (striped bs) offset size t := by
        have inner := Nat.mod_lt (offset + t) (show 0 < bs by omega)
        have same : copySize (striped bs) offset size t = min (bs - (offset + t) % bs) (size - t) := by
          rw [copySize,jank]
          rfl
        omega
      rw [add64Eq (by omega)] at stepped
      refine ih _ (by omega) stepped next (by omega) (fun past => ?_) rfl
      by_cases already : 2^64 ≤ offset + t
      · have index : indexAt (striped bs) offset t < 12 := by
          refine Nat.div_lt_of_lt_mul ?_
          change add64 t offset < bs * 12
          unfold add64
          omega
        rw [direct (Nat.eq_zero_of_not_pos fun indirect => by have := (placeDirectIff _ _).mp indirect; omega)]
        exact round already
      · have last := blockEnd divides (show 0 < bs by omega) (Nat.lt_of_not_le already)
        refine deep ?_
        have index : indexAt (striped bs) offset t = (offset + t) / bs := by
          change add64 t offset / bs = _
          rw [add64Eq (by omega),Nat.add_comm]
        rw [index]
        exact deepRank block small (by omega)
    · have here : t = 2^64 + 12 * bs - offset := by omega
      subst here
      exact ⟨h,trail,round (by omega)⟩

def stripeEnv : Env := ⟨fun _ _ n => n,fun _ => some zeros⟩

def stripeWorld (bs : Nat) : World := ⟨stripes bs,0,0,0⟩

theorem stripeFull : stripeEnv.Full := fun _ _ _ => le_rfl

theorem roundRead (block : BlockSize bs) (small : bs < 2^32) (below : offset < 2^64) (short : size < 2^64)
    (far : 2^64 + 12 * bs < offset + size) {n : Nat} {after : World} {r : Mem}
    (returns : Returns stripeEnv (striped bs) offset size (stripeWorld bs) zeros n after r) :
    2^64 + 12 * bs - offset < n ∧ r (2^64 + 12 * bs - offset) = 1 := by
  obtain ⟨large,_,_⟩ := block.bounds
  have allocates : stripeEnv.Allocates := fun _ => rfl
  have more : 2^64 + 12 * bs - offset < size := by omega
  obtain ⟨h,trail,single⟩ := roundTrail block small below short far .start ⟨nofun,nofun,nofun⟩ (by omega)
    fun late => absurd late (by omega)
  have sized : 4 ≤ (striped bs).blockSize := (show 4 ≤ 1024 by decide).trans large
  change Trail (striped bs) twoTables (Exactly (striped bs) (stripeWorld bs).disk) _ offset size _ h at trail
  obtain ⟨turns,w,run,reading,at_,homesAt⟩ := trailRuns stripeFull allocates sized zeros trail
  have whole : add64 (2^64 + 12 * bs - offset) offset = 12 * bs := by
    unfold add64
    omega
  have index : blockIndex (striped bs) offset w = 12 := by
    unfold blockIndex
    rw [at_,whole]
    exact Nat.mul_div_cancel 12 (by omega)
  have path : place bs 12 = .single 0 := by
    have zero : (12 - 12) / bs = 0 := Nat.zero_div bs
    simp [place]
  have led : Resolves (roots twoTables) (Exactly (striped bs) (stripes bs)) h (place bs 12)
      (.found 1 (Function.update h .single (some 1))) := by
    rw [path]
    change topOf (h .single) _ _ _
    rw [single]
    exact stripeBelow block small (.inl rfl) (by omega) rfl
  have unique : ∀ r, Resolves (roots twoTables) (Reads stripeEnv (striped bs) (stripes bs)) (homes twoTables w)
      (place bs (blockIndex (striped bs) offset w)) r → r = .found 1 (Function.update h .single (some 1)) := by
    intro r other
    rw [readsFull stripeFull,homesAt,index] at other
    exact resolvesUnique (fun t i a b left right => left.2.trans right.2.symm) other led
  obtain ⟨fuel,returns⟩ := returns
  have more := at_ ▸ more
  obtain ⟨e,loop,rfl,_,out⟩ := readEnds rfl (by omega) (returns (turns + 1))
  cases Option.some.inj out
  rw [show fuel + (turns + 1) = turns + (fuel + 1) by omega,run (fuel + 1),traverseLoop,if_pos more] at loop
  rw [← at_]
  obtain ⟨last,found,_,same,_⟩ := findBlockOnly (readSetting stripeFull.stable (striped bs) twoTables (stripes bs) size)
    allocates sized reading.cached unique
  obtain ⟨world,_,step⟩ := readVisited stripeFull sized short more found same
  have next := readingStep stripeFull.stable reading more step
  have bound := (readingKept stripeFull short reading more step).2.1
  rw [step] at loop
  obtain ⟨reach,kept⟩ := readingLast stripeFull short next bound loop
  have jank : jankAt (striped bs) offset w.traversed = 0 := by
    rw [jankMod,at_]
    change add64 (2^64 + 12 * bs - offset) offset % bs = 0
    rw [whole]
    exact Nat.mul_mod_left 12 bs
  have some : 0 < copySize (striped bs) offset size w.traversed := by
    rw [copySize,jank]
    change 0 < min (bs - 0) (size - w.traversed)
    omega
  refine ⟨Nat.lt_of_lt_of_le (Nat.lt_add_of_pos_right some) reach,?_⟩
  rw [kept _ (Nat.lt_add_of_pos_right some)]
  change patch w.data w.traversed _ _ w.traversed = 1
  rw [patchInside le_rfl (Nat.lt_add_of_pos_right some),jank,reading.disk,Nat.sub_self]
  exact UInt8.toNat_inj.mp (stripeHead block small (.inl rfl))

theorem roundDiffers (block : BlockSize bs) (small : bs < 2^32) (below : offset < 2^64) (short : size < 2^64)
    (far : 2^64 + 12 * bs < offset + size) : ¬ AsFresh bs offset size := by
  intro asFresh
  obtain ⟨large,_,divides⟩ := block.bounds
  have allocates : stripeEnv.Allocates := fun _ => rfl
  obtain ⟨n,r,after,last,returns,blocks⟩ := asFresh.blocks stripeEnv (striped bs) twoTables (stripeWorld bs) zeros
    stripeFull allocates rfl rfl
  obtain ⟨m,q,final,other,fetched⟩ := blocksFetched stripeFull allocates (show BlockSize (striped bs).blockSize from block)
    (show (striped bs).node = some twoTables from rfl) short (show (stripeWorld bs).disk = stripes bs from rfl)
    (partlyStart _ _ _ _ zeros) (Nat.zero_le size)
  obtain ⟨rfl,rfl⟩ := byBlocksUnique blocks other
  obtain ⟨reach,one⟩ := roundRead block small below short far returns
  obtain ⟨a,at_,byte⟩ := fetched.got _ reach
  have index : add64 (2^64 + 12 * bs - offset) offset = 12 * bs := by
    unfold add64
    omega
  have path : place bs 12 = .single 0 := by simp [place]
  have second : resolved (striped bs) twoTables (stripes bs) 12 = some 2 := by
    unfold resolved
    change lookup _ _ (place bs 12) = _
    rw [path]
    change (follow 2).bind (fun t => follow (entryAt (striped bs) (stripes bs) t 0)) = some 2
    rw [followPos (by decide),Option.bind_some,stripeEntry block small (.inr rfl) (by omega)]
    rfl
  have here : address (striped bs) twoTables (stripes bs) (12 * bs) = some (add64 (mul64 2 bs) 0) := by
    unfold address
    change (resolved _ _ _ (12 * bs / bs)).map (fun block => add64 (mul64 block bs) (12 * bs % bs)) = _
    rw [Nat.mul_div_cancel 12 (by omega),Nat.mul_mod_left,second]
    rfl
  rw [index,here] at at_
  cases at_
  have head := stripeHead block small (t := 2) (.inr rfl)
  rw [← byte,one] at head
  exact absurd head (by decide)

end Stripes

/-- A read agrees with its pieces exactly when its range does not come round past 2^64 to the
singly indirect blocks, or has no others. -/
theorem asFreshIff {bs offset size : Nat} (block : BlockSize bs) (below : offset < 2^64) (short : size < 2^64) :
    AsFresh bs offset size ↔ Near bs offset size := by
  constructor
  · intro asFresh
    by_contra far
    obtain ⟨past,small⟩ := not_or.mp far
    exact roundDiffers block (Nat.lt_of_not_le small) below short (Nat.lt_of_not_le past) asFresh
  · exact nearAsFresh block below short

theorem asFreshFirstDouble : AsFresh 1024 262144 65536 :=
  (asFreshIff ⟨0,by decide,rfl⟩ (by decide) (by decide)).mpr (.inl (by decide))

theorem roundNotFresh : ¬ ∀ bs offset size, BlockSize bs → offset < 2^64 → size < 2^64 → AsFresh bs offset size := by
  intro fresh
  exact roundDiffers ⟨0,by decide,rfl⟩ (by decide) (by decide) (by decide) (by decide)
    (fresh 1024 (2^64 - 1024) 14336 ⟨0,by decide,rfl⟩ (by decide) (by decide))

end Kdrivers.Ext2Fresh
