import Kdrivers.Ext2WriteRead

/-! Block creation during a write. Wherever a pointer is zero the walk asks the create
callback for a block, but it stores the number it gets neither in the inode nor in a table.
So the creations are recorded exactly if there are none, that is if every index of the
range leads to a block before the write. -/
namespace Kdrivers.Ext2Create
open Bytes Vfs Ext2State Ext2Traverse Ext2Cache Ext2Resolve Ext2ReadOnly Ext2Layout Ext2Transfer Ext2WriteRead IndexTree

abbrev Create (κ : Type) := κ → (inode : Nat) → Nat × κ

structure Session (κ : Type) where
  buffer : Mem
  maker : κ
  made : List Nat
  handed : List (Nat × Nat)

def recorder {κ : Type} (env : Env) (st : BasicState) (create : Create κ) (offset size : Nat) : Client (Session κ) where
  visit world session block traversed jank :=
    let written := ext2WriteCallback env st size world session.buffer block traversed jank
    (written.1,written.2.1,{ session with
      buffer := written.2.2
      handed := (indexAt st offset traversed,block)::session.handed })
  create := some fun session inode =>
    let created := create session.maker inode
    (created.1,{ session with maker := created.2, made := created.1::session.made })

def pointer (st : BasicState) (node : Ext2Inode) (image : Mem) : Slot → Nat :=
  Slot.value (roots node) (entryAt st image)

def pointers (st : BasicState) (node : Ext2Inode) (image : Mem) (b : Nat) : List Slot :=
  met (roots node) (entryAt st image) (place st.blockSize b)

/- What is to hold after the walk. The walk assigns nothing to the inode, so that before
and after it are one. -/
structure Recorded {κ : Type} (st : BasicState) (node : Ext2Inode) (offset size : Nat) (before after : Mem)
    (session : Session κ) : Prop where
  created : ∃ missing : List Slot, missing.Nodup ∧
    (∀ s, s ∈ missing ↔ pointer st node before s = 0 ∧ ∃ b x, (b,x) ∈ session.handed ∧
      (s ∈ pointers st node before b ∨ s ∈ pointers st node after b)) ∧
    session.made.Perm (missing.map (pointer st node after))
  resolves : ∀ b x, (b,x) ∈ session.handed → resolved st node after b = some x
  visited : ∀ i < size, ∃ x, ((offset + i) / st.blockSize,x) ∈ session.handed

def Records {κ : Type} (env : Env) (st : BasicState) (node : Ext2Inode) (create : Create κ) (maker : κ)
    (offset size : Nat) (world : World) (buffer : Mem) : Prop :=
  ∃ fuel n after session, (∀ k, ext2TraverseBlocks env st (recorder env st create offset size) (fuel + k) offset size
    world ⟨buffer,maker,[],[]⟩ = .ret (n,after,session)) ∧ Recorded st node offset size world.disk after.disk session

inductive Later {κ : Type} (create : Create κ) (inode : Nat) (maker : κ) : κ → Prop where
  | start : Later create inode maker maker
  | call {k : κ} : Later create inode maker k → Later create inode maker (create k inode).2

def Fresh {κ : Type} (st : BasicState) (node : Ext2Inode) (image : Mem) (create : Create κ) (maker : κ) : Prop :=
  ∀ k, Later create st.inode maker k → (create k st.inode).1 ≠ 0 ∧ (create k st.inode).1 < 2^32 ∧
    (∀ l, ¬ TableOf st node image l (create k st.inode).1) ∧ ¬ DataOf st node image (create k st.inode).1

def idle {σ : Type} (c : Client σ) : Client σ := { c with create := none }

def Leads {σ α : Type} (x y : Flow σ α) : Prop := ∀ a w, x = .next a w → y = .next a w

theorem leadsBind {σ α β : Type} {x y : Flow σ α} {f g : α → Walk σ → Flow σ β} (first : Leads x y)
    (rest : ∀ a w, Leads (f a w) (g a w)) : Leads (x.bind f) (y.bind g) := by
  intro b last run
  cases x with
  | next a w =>
    rw [first a w rfl]
    exact rest a w b last run
  | exit w => cases run
  | fault f => cases run

section Idle
variable {σ : Type} (env : Env) (st : BasicState) (node : Ext2Inode) (c : Client σ)

theorem loadBlockIdle (block : Nat) (data : σ) : ext2LoadBlock st (idle c) block data = (block,data) :=
  loadBlockBarren nofun block data

theorem loadBlockSome {block : Nat} (nonzero : block ≠ 0) (data : σ) : ext2LoadBlock st c block data = (block,data) :=
  if_pos nonzero

theorem loadReadIdle {block : Nat} (nonzero : block ≠ 0) (out : Option Mem) (world : World) (data : σ) :
    ext2LoadReadBlock env st (idle c) block out world data = ext2LoadReadBlock env st c block out world data := by
  unfold ext2LoadReadBlock
  rw [loadBlockSome st c nonzero,loadBlockSome st (idle c) nonzero]

theorem directLeads (i : Nat) (w : Walk σ) : Leads (directBlock st node (idle c) i w) (directBlock st node c i w) := by
  intro block last run
  unfold directBlock at run ⊢
  rw [loadBlockIdle] at run
  by_cases zero : node.direct i = 0
  · simp [zero] at run
  · rw [loadBlockSome st c zero]
    exact run

theorem skipDibpLeads (i : Nat) (w : Walk σ) : Leads (skipDibp st (idle c) i w) (skipDibp st c i w) := by
  intro block last run
  unfold skipDibp at run ⊢
  cases held : w.table .single with
  | none => simp [held] at run
  | some sibp =>
    simp only [held,loadBlockIdle] at run ⊢
    by_cases zero : le32 sibp (4 * i) = 0
    · simp [zero] at run
    · rw [loadBlockSome st c zero]
      exact run

theorem loadTopLeads (l : Level) (w : Walk σ) :
    Leads (loadTop env st node (idle c) l w) (loadTop env st node c l w) := by
  intro u last run
  unfold loadTop at run ⊢
  cases held : w.table l with
  | some table => simpa only [held] using run
  | none =>
    simp only [held] at run ⊢
    by_cases zero : node.top l = 0
    · exfalso
      revert run
      unfold ext2LoadReadBlock
      simp only [zero,loadBlockIdle]
      cases fresh : env.fresh w.world.allocs <;> simp [alloc,fresh]
    · rw [← loadReadIdle env st c zero]
      exact run

theorem switchLeads (upper lower : Level) (i : Nat) (w : Walk σ) :
    Leads (switchTable env st (idle c) upper lower i w) (switchTable env st c upper lower i w) := by
  intro u last run
  unfold switchTable at run ⊢
  cases held : w.table upper with
  | none => simp [held] at run
  | some above =>
    simp only [held,loadBlockIdle] at run ⊢
    by_cases zero : le32 above (4 * i) = 0
    · simp [zero] at run
    · simp only [loadBlockSome st c zero,loadReadIdle env st c zero] at run ⊢
      exact run

theorem findLeads (index : Nat) (w : Walk σ) :
    Leads (findBlock env st node (idle c) index w) (findBlock env st node c index w) := by
  have doDibp (i j : Nat) (w : Walk σ) :
      Leads ((switchTable env st (idle c) .double .single i w).bind fun _ w => skipDibp st (idle c) j w)
        ((switchTable env st c .double .single i w).bind fun _ w => skipDibp st c j w) :=
    leadsBind (switchLeads env st c _ _ i w) fun _ w => skipDibpLeads st c j w
  unfold findBlock
  dsimp only
  split
  · exact directLeads st node c index w
  split
  · exact fun _ _ run => run
  split
  · exact leadsBind (loadTopLeads env st node c _ w) fun _ w => skipDibpLeads st c _ w
  split
  · exact leadsBind (loadTopLeads env st node c _ w) fun _ w =>
      leadsBind (switchLeads env st c _ _ _ w) fun _ w => doDibp _ _ w
  · exact leadsBind (loadTopLeads env st node c _ w) fun _ w => doDibp _ _ w

theorem stepLeads (offset : Nat) (w : Walk σ) :
    Leads (traverseStep env st node (idle c) offset w) (traverseStep env st node c offset w) := by
  unfold traverseStep
  split
  · exact fun _ _ run => run
  · exact leadsBind (findLeads env st node c _ w) fun _ _ _ _ run => run

end Idle

section Mapped
variable {env : Env} {st : BasicState} {node : Ext2Inode} {image : Mem} {offset size : Nat} {κ : Type} {create : Create κ}

theorem recorderGentle (full : env.Full) (sized : 4 ≤ st.blockSize) (sound : Sound st node image) :
    Gentle env st node (idle (recorder env st create offset size)) image (TableOf st node image) (DataOf st node image)
      size := by
  have plain := writeSoundGentle full sized sound size
  exact ⟨nofun,plain.closed,fun world session block t j => plain.keeps world session.buffer block t j,
    fun world session block t j => plain.within world session.buffer block t j⟩

structure Visits (st : BasicState) (node : Ext2Inode) (image : Mem) (offset t : Nat) (session : Session κ) : Prop where
  made : session.made = []
  resolves : ∀ b x, (b,x) ∈ session.handed → resolved st node image b = some x
  visited : ∀ i < t, ∃ x, ((offset + i) / st.blockSize,x) ∈ session.handed

theorem visitsKeep (full : env.Full) (fits : offset + size ≤ 2^64) (w found : Walk (Session κ)) (block : Nat)
    (holds : Visits st node image offset w.traversed w.data) (more : w.traversed < size) (same : Same w found)
    (here : resolved st node image ((offset + w.traversed) / st.blockSize) = some block) :
    let visit := (idle (recorder env st create offset size)).visit found.world found.data block w.traversed
      ((offset + w.traversed) % st.blockSize)
    Visits st node image offset (w.traversed + visit.1) visit.2.2 := by
  intro visit
  have count : visit.1 = min (st.blockSize - (offset + w.traversed) % st.blockSize) (size - w.traversed) :=
    Nat.min_eq_left (full _ _ _)
  have index : indexAt st offset w.traversed = (offset + w.traversed) / st.blockSize := by
    rw [indexAt,addInside fits more,Nat.add_comm]
  have handed : visit.2.2.handed = ((offset + w.traversed) / st.blockSize,block)::w.data.handed := by
    rw [← index,← same.2.1]
    rfl
  have made : visit.2.2.made = w.data.made := by
    rw [← same.2.1]
    rfl
  refine ⟨made.trans holds.made,?_,?_⟩
  · intro b x member
    rw [handed] at member
    rcases List.mem_cons.mp member with last | before
    · cases last
      exact here
    · exact holds.resolves b x before
  · intro i below
    rw [handed]
    by_cases old : i < w.traversed
    · obtain ⟨x,member⟩ := holds.visited i old
      exact ⟨x,List.mem_cons_of_mem _ member⟩
    · have near : (offset + w.traversed + (i - w.traversed)) / st.blockSize = (offset + w.traversed) / st.blockSize :=
        (sameBlock (n := visit.1) (by omega) (by omega)).1
      rw [show offset + w.traversed + (i - w.traversed) = offset + i by omega] at near
      exact ⟨block,by rw [near]; exact List.mem_cons_self⟩

theorem loopIdle {c : Client (Session κ)} {T : Tables} {D : Nat → Prop} (full : env.Full) (allocates : env.Allocates)
    (sized : 4 ≤ st.blockSize) (gentle : Gentle env st node (idle c) image T D size) (fits : offset + size ≤ 2^64)
    (short : size < 2^64) {fuel : Nat} {w e : Walk (Session κ)}
    (straight : Straight env st node image T offset size w)
    (ended : traverseLoop env st node (idle c) offset size fuel w = .exit e) (whole : e.traversed = size) :
    traverseLoop env st node c offset size fuel w = .exit e := by
  induction fuel generalizing w with
  | zero => cases ended
  | succ fuel ih =>
    unfold traverseLoop at ended ⊢
    split at ended
    · rename_i more
      rw [if_pos more]
      obtain ⟨block,found,_,_,_,step,next⟩ | ⟨last,_,step,_,count⟩ :=
        straightTurn full allocates sized gentle fits short straight more
      · rw [step] at ended
        rw [stepLeads env st node c offset w _ _ step]
        exact ih next ended
      · rw [step] at ended
        cases ended
        omega
    · rename_i done
      rw [if_neg done]
      exact ended

theorem foundNonzero {b x : Nat} (found : resolved st node image b = some x) {s : Slot}
    (met : s ∈ pointers st node image b) : pointer st node image s ≠ 0 := by
  intro zero
  rw [resolved,(lookupNone _).mpr ⟨s,met,zero⟩] at found
  cases found

theorem foundNonzeroKept (sized : 4 ≤ st.blockSize) {disk : Mem}
    (kept : ∀ l t i, TableOf st node image l t → i < st.blockSize / 4 → entryAt st disk t i = entryAt st image t i)
    {b x : Nat} (found : resolved st node disk b = some x) {s : Slot} (met : s ∈ pointers st node disk b) :
    pointer st node image s ≠ 0 := by
  have nonzero := foundNonzero found met
  cases s with
  | direct i => exact nonzero
  | top l => exact nonzero
  | entry t i =>
    obtain ⟨⟨l,named⟩,inside⟩ := metNamed (placeWithin st.blockSize b (by omega)) met
    have same : pointer st node disk (.entry t i) = pointer st node image (.entry t i) :=
      kept l t i (namedSame kept named) inside
    rwa [same] at nonzero

theorem visitsStart (buffer : Mem) (maker : κ) : Visits st node image offset 0 ⟨buffer,maker,[],[]⟩ :=
  ⟨rfl,fun _ _ member => absurd member List.not_mem_nil,fun i low => absurd low (Nat.not_lt_zero i)⟩

theorem visitsRecorded (sized : 4 ≤ st.blockSize) {disk : Mem}
    (kept : ∀ l t i, TableOf st node image l t → i < st.blockSize / 4 → entryAt st disk t i = entryAt st image t i)
    {session : Session κ} (visits : Visits st node image offset size session) :
    Recorded st node offset size image disk session := by
  have resolves (b x : Nat) (member : (b,x) ∈ session.handed) : resolved st node disk b = some x := by
    rw [resolved,lookupNamed kept (placeWithin st.blockSize b (by omega))]
    exact visits.resolves b x member
  refine ⟨⟨[],.nil,fun s => ?_,?_⟩,resolves,visits.visited⟩
  · refine iff_of_false List.not_mem_nil ?_
    intro gone
    obtain ⟨zero,b,x,member,before | now⟩ := gone
    · exact foundNonzero (visits.resolves b x member) before zero
    · exact foundNonzeroKept sized kept (resolves b x member) now zero
  · rw [visits.made]
    exact .nil

/-- Where every index of the range leads to a block, nothing is created and each index
leads where it did. -/
theorem mappedRecords (full : env.Full) (allocates : env.Allocates) (sized : 4 ≤ st.blockSize) {world : World}
    (sound : Sound st node world.disk) (held : st.node = some node) (fits : offset + size ≤ 2^64) (short : size < 2^64)
    (mapped : ∀ i < size, ∃ x, resolved st node world.disk ((offset + i) / st.blockSize) = some x) (maker : κ)
    (buffer : Mem) : Records env st node create maker offset size world buffer := by
  by_cases nothing : size = 0
  · subst nothing
    exact ⟨0,0,world,_,fun k => if_pos rfl,visitsRecorded sized (fun _ _ _ _ _ => rfl) (visitsStart buffer maker)⟩
  have gentle : Gentle env st node (idle (recorder env st create offset size)) world.disk _ _ size :=
    recorderGentle full sized sound
  have start : Straight env st node world.disk (TableOf st node world.disk) offset size
      (.start world (⟨buffer,maker,[],[]⟩ : Session κ)) := straightStart world rfl _
  obtain ⟨fuel,e,run,ends⟩ := transferEnds full allocates sized gentle fits short
    (fun _ _ _ _ _ => Nat.min_eq_left (full _ _ _))
    (P := fun w => Visits st node world.disk offset w.traversed w.data)
    (fun w found block holds more same _ here => visitsKeep full fits w found block holds more same here)
    start (visitsStart buffer maker)
  have whole : e.traversed = size := by
    have bound := ends.bound
    by_contra less
    obtain ⟨x,here⟩ := mapped e.traversed (by omega)
    rw [ends.short (by omega)] at here
    cases here
  obtain ⟨w,straight,visits,_,_,same⟩ := ends.last
  obtain rfl := same whole
  refine ⟨fuel,e.traversed,traverseExit env st node e,e.data,fun k => ?_,?_⟩
  · rw [ext2TraverseBlocks,if_neg nothing,held]
    dsimp only
    rw [loopMore (loopIdle full allocates sized gentle fits short start run whole) k]
  · rw [exitKeeps (gentleSetting full.stable gentle) straight.cached]
    exact visitsRecorded sized (entryKept sized sound (straightTables full sized sound straight)) (whole ▸ visits)

end Mapped

/-! A write of zeros never fills a slot that was zero: no table is changed in memory, each
goes back to its own block, and the blocks created are others. -/

structure Vacant (st : BasicState) (node : Ext2Inode) (image : Mem) (t i : Nat) : Prop where
  table : ∃ l, TableOf st node image l t
  inside : i < st.blockSize / 4
  zero : entryAt st image t i = 0

def ClearDisk (st : BasicState) (node : Ext2Inode) (image disk : Mem) : Prop :=
  ∀ t i, Vacant st node image t i → ∀ j < 4, disk (t * st.blockSize + 4 * i + j) = 0

def ClearTable (st : BasicState) (node : Ext2Inode) (image : Mem) (t : Nat) (table : Mem) : Prop :=
  ∀ i, Vacant st node image t i → ∀ j < 4, table (4 * i + j) = 0

structure Clear {σ : Type} (st : BasicState) (node : Ext2Inode) (image : Mem) (Q : σ → Prop) (w : Walk σ) : Prop where
  disk : ClearDisk st node image w.world.disk
  tables : ∀ l table, w.table l = some table → ClearTable st node image (home node w l) table
  small : ∀ l, w.last l < 2^32
  empty : ∀ l, w.table l = none → w.last l = 0
  top : w.last .triple = 0
  data : Q w.data

structure Zeroing {σ : Type} (st : BasicState) (node : Ext2Inode) (image : Mem) (c : Client σ) (Q : σ → Prop) :
    Prop where
  create : ∃ f, c.create = some f ∧ ∀ data, Q data → (f data st.inode).1 ≠ 0 ∧ (f data st.inode).1 < 2^32 ∧
    (∀ i, ¬ Vacant st node image (f data st.inode).1 i) ∧ Q (f data st.inode).2
  visit : ∀ world data block traversed jank, Q data → Q (c.visit world data block traversed jank).2.2 ∧
    ∀ a, world.disk a = 0 → (c.visit world data block traversed jank).2.1.disk a = 0

def Keeps {σ α : Type} (P : Walk σ → Prop) : Flow σ α → Prop
  | .next _ w => P w
  | .exit w => P w
  | .fault _ => True

theorem keepsBind {σ α β : Type} {P : Walk σ → Prop} {x : Flow σ α} {f : α → Walk σ → Flow σ β} (first : Keeps P x)
    (rest : ∀ a w, P w → Keeps P (f a w)) : Keeps P (x.bind f) := by
  cases x with
  | next a w => exact rest a w first
  | exit w => exact first
  | fault f => trivial

section Zeros
variable {σ : Type} {env : Env} {st : BasicState} {node : Ext2Inode} {image : Mem} {c : Client σ} {Q : σ → Prop}

theorem vacantNonzero {t i : Nat} (vacant : Vacant st node image t i) : t ≠ 0 := by
  obtain ⟨l,named⟩ := vacant.table
  cases named with
  | top l nonzero => exact nonzero
  | entry _ _ _ nonzero => exact nonzero

theorem vacantLt {t i : Nat} (vacant : Vacant st node image t i) : t < 2^32 := by
  obtain ⟨l,named⟩ := vacant.table
  cases named with
  | top l _ => exact topLt node l
  | entry _ _ _ _ => exact le32Lt _ _

theorem writeTableClear (full : env.Full) (large : st.blockSize ≤ 2^32) {world : World} {block : Nat}
    (small : block < 2^32) {table : Option Mem} (clear : ClearDisk st node image world.disk)
    (held : ∀ held, table = some held → ClearTable st node image block held) :
    ClearDisk st node image (writeTable env st world block table).disk := by
  intro t i vacant j low
  cases table with
  | none => exact clear t i vacant j low
  | some table =>
    have inside := vacant.inside
    rw [writeTableFull full,addr,blockAddr large small]
    by_cases here : block = t
    · subst here
      rw [patchInside (by omega) (by omega),show block * st.blockSize + 4 * i + j - block * st.blockSize =
        4 * i + j by omega]
      exact held table rfl i vacant j low
    · rw [patchOutside]
      · exact clear t i vacant j low
      · by_contra both
        refine blocksApart (fun same => here same.symm) (i := 4 * i + j)
          (j := t * st.blockSize + 4 * i + j - block * st.blockSize) (by omega : 4 * i + j < st.blockSize) (by omega) ?_
        omega

theorem exitClear (full : env.Full) (large : st.blockSize ≤ 2^32) {e : Walk σ} (clear : Clear st node image Q e) :
    ClearDisk st node image (traverseExit env st node e).disk := by
  have small (l : Level) : home node e l < 2^32 := by
    unfold home
    split
    · exact topLt node l
    · exact clear.small l
  have back (l : Level) {world : World} (clean : ClearDisk st node image world.disk) :=
    writeTableClear full large (small l) clean (clear.tables l)
  have top : home node e .triple = node.top .triple := if_pos clear.top
  unfold traverseExit
  rw [← top]
  exact back .single (back .double (back .triple clear.disk))

theorem loadBlockZeroing (zeroing : Zeroing st node image c Q) {block : Nat} (small : block < 2^32) {data : σ}
    (good : Q data) : ∃ n after, ext2LoadBlock st c block data = (n,after) ∧ n ≠ 0 ∧ n < 2^32 ∧
      (∀ i, Vacant st node image n i → block = n) ∧ Q after := by
  by_cases zero : block = 0
  · obtain ⟨f,made,create⟩ := zeroing.create
    obtain ⟨nonzero,below,apart,next⟩ := create data good
    exact ⟨_,_,by simp [ext2LoadBlock,zero,made],nonzero,below,fun i vacant => absurd vacant (apart i),next⟩
  · exact ⟨block,data,if_pos zero,zero,small,fun _ _ => rfl,good⟩

theorem clearData {w : Walk σ} (clear : Clear st node image Q w) {data : σ} (good : Q data) :
    Clear st node image Q { w with data := data } :=
  ⟨clear.disk,clear.tables,clear.small,clear.empty,clear.top,good⟩

theorem skipDibpKeeps (zeroing : Zeroing st node image c Q) (i : Nat) {w : Walk σ} (clear : Clear st node image Q w) :
    Keeps (Clear st node image Q) (skipDibp st c i w) := by
  unfold skipDibp
  cases held : w.table .single with
  | none => trivial
  | some sibp =>
    obtain ⟨n,data,load,nonzero,_,_,good⟩ := loadBlockZeroing zeroing (le32Lt sibp (4 * i)) clear.data
    simp only [load,if_neg nonzero]
    exact clearData clear good

theorem directKeeps (zeroing : Zeroing st node image c Q) (i : Nat) {w : Walk σ} (clear : Clear st node image Q w) :
    Keeps (Clear st node image Q) (directBlock st node c i w) := by
  obtain ⟨n,data,load,nonzero,_,_,good⟩ := loadBlockZeroing zeroing (directLt node i) clear.data
  unfold directBlock
  simp only [load,if_neg nonzero]
  exact clearData clear good

theorem clearUpdate {w : Walk σ} (clear : Clear st node image Q w) (world : World)
    (disk : ClearDisk st node image world.disk) {data : σ} (good : Q data) {l : Level} (last : Nat) {table : Mem}
    (below : last < 2^32) (lone : l = .triple → last = 0)
    (fresh : ClearTable st node image (if last = 0 then node.top l else last) table) :
    Clear st node image Q { w with
      world := world
      data := data
      table := Function.update w.table l (some table)
      last := Function.update w.last l last } := by
  refine ⟨disk,?_,?_,?_,?_,good⟩
  · intro m other same
    by_cases here : m = l
    · subst here
      cases (Function.update_self m (some table) w.table).symm.trans same
      simp only [home,Function.update_self]
      exact fresh
    · simp only [home,Function.update_of_ne here] at same ⊢
      exact clear.tables m other same
  · intro m
    by_cases here : m = l
    · subst here
      simpa using below
    · simpa [Function.update_of_ne here] using clear.small m
  · intro m none
    by_cases here : m = l
    · subst here
      simp at none
    · simp only [Function.update_of_ne here] at none ⊢
      exact clear.empty m none
  · by_cases here : l = .triple
    · subst here
      simp [lone rfl]
    · simp only [Function.update_of_ne (Ne.symm here)]
      exact clear.top

variable (full : env.Full) (allocates : env.Allocates) (large : st.blockSize ≤ 2^32)
  (zeroing : Zeroing st node image c Q)
include full allocates large zeroing

theorem loadReadZeroing {block : Nat} (small : block < 2^32) (out : Option Mem) {world : World}
    (clear : ClearDisk st node image world.disk) {data : σ} (good : Q data) :
    ∃ table after next, ext2LoadReadBlock env st c block out world data = (0,some table,after,next) ∧
      after.disk = world.disk ∧ ClearTable st node image block table ∧ Q next := by
  obtain ⟨n,next,load,nonzero,below,_,kept⟩ := loadBlockZeroing zeroing small good
  have filled (buffer : Mem) (w : World) (same : w.disk = world.disk) :
      ClearTable st node image block (vfsRead env (vfsSeek w (mul64 n st.blockSize)) buffer 0 st.blockSize).2.1 := by
    intro i vacant j low
    have inside := vacant.inside
    have one : n = block := by
      have some := vacantNonzero vacant
      have stored : ext2LoadBlock st c block data = (block,data) := if_pos some
      rw [stored] at load
      cases load
      rfl
    rw [(readFull full _ _ _ _).2,patchInside (by omega) (by omega),viewApply,seekDisk,seekPos,blockAddr large below,
      one,same,Nat.sub_zero,← Nat.add_assoc]
    exact clear block i vacant j low
  unfold ext2LoadReadBlock
  cases out with
  | some buffer =>
    simp only [load,ne_eq,nonzero,not_false_eq_true,if_true]
    exact ⟨_,_,_,rfl,rfl,filled buffer world rfl,kept⟩
  | none =>
    cases fresh : env.fresh world.allocs with
    | none =>
      have some := allocates world.allocs
      simp [fresh] at some
    | some buffer =>
      simp only [alloc,fresh,load,ne_eq,nonzero,not_false_eq_true,if_true]
      exact ⟨_,_,_,rfl,rfl,filled buffer { world with allocs := world.allocs + 1 } rfl,kept⟩

theorem loadTopKeeps (l : Level) {w : Walk σ} (clear : Clear st node image Q w) :
    Keeps (Clear st node image Q) (loadTop env st node c l w) := by
  unfold loadTop
  cases held : w.table l with
  | some table => exact clear
  | none =>
    obtain ⟨table,world,data,load,disk,fresh,good⟩ := loadReadZeroing full allocates large zeroing (topLt node l) none
      clear.disk clear.data
    have unchanged : w.last = Function.update w.last l 0 := by
      rw [← clear.empty l held,Function.update_eq_self]
    have grown := clearUpdate clear world (by rw [disk]; exact clear.disk) good 0 (by decide) (fun _ => rfl) fresh
    rw [← unchanged] at grown
    simp only [load,if_true]
    exact grown

theorem switchKeeps {upper lower : Level} (higher : Over upper lower) (i : Nat) {w : Walk σ}
    (clear : Clear st node image Q w) : Keeps (Clear st node image Q) (switchTable env st c upper lower i w) := by
  unfold switchTable
  cases held : w.table upper with
  | none => trivial
  | some above =>
    obtain ⟨n,data,load,nonzero,below,own,good⟩ := loadBlockZeroing zeroing (le32Lt above (4 * i)) clear.data
    simp only [load,if_neg nonzero]
    by_cases again : n = w.last lower
    · rw [if_pos again]
      exact clearData clear good
    · rw [if_neg again]
      have back : ClearDisk st node image (if w.last lower ≠ 0 then writeTable env st w.world (w.last lower)
          (w.table lower) else w.world).disk := by
        split
        · rename_i some
          have place : home node w lower = w.last lower := if_neg some
          exact writeTableClear full large (clear.small lower) clear.disk fun table held =>
            place ▸ clear.tables lower table held
        · exact clear.disk
      obtain ⟨table,world,next,load,disk,fresh,good⟩ := loadReadZeroing full allocates large zeroing
        (le32Lt above (4 * i)) (w.table lower) back good
      simp only [load]
      refine clearUpdate clear world (by rw [disk]; exact back) good n below (by rintro rfl; cases higher) ?_
      rw [if_neg nonzero]
      exact fun j vacant => fresh j (own j vacant ▸ vacant)

theorem findKeeps (index : Nat) {w : Walk σ} (clear : Clear st node image Q w) :
    Keeps (Clear st node image Q) (findBlock env st node c index w) := by
  have top (l : Level) {w : Walk σ} (clear : Clear st node image Q w) := loadTopKeeps full allocates large zeroing l clear
  have doDibp (i j : Nat) {w : Walk σ} (clear : Clear st node image Q w) : Keeps (Clear st node image Q)
      ((switchTable env st c .double .single i w).bind fun _ w => skipDibp st c j w) :=
    keepsBind (switchKeeps full allocates large zeroing .double i clear) fun _ _ => skipDibpKeeps zeroing j
  unfold findBlock
  dsimp only
  split
  · exact directKeeps zeroing index clear
  split
  · trivial
  split
  · exact keepsBind (top _ clear) fun _ _ => skipDibpKeeps zeroing _
  split
  · exact keepsBind (top _ clear) fun _ _ clear =>
      keepsBind (switchKeeps full allocates large zeroing .triple _ clear) fun _ _ => doDibp _ _
  · exact keepsBind (top _ clear) fun _ _ => doDibp _ _

theorem stepKeeps (offset : Nat) {w : Walk σ} (clear : Clear st node image Q w) :
    Keeps (Clear st node image Q) (traverseStep env st node c offset w) := by
  unfold traverseStep
  split
  · trivial
  · refine keepsBind (findKeeps full allocates large zeroing _ clear) fun block found clear => ?_
    obtain ⟨good,zero⟩ := zeroing.visit found.world found.data block found.traversed (blockJank st offset w) clear.data
    exact ⟨fun t i vacant j low => zero _ (clear.disk t i vacant j low),clear.tables,clear.small,clear.empty,clear.top,
      good⟩

theorem loopKeeps {offset size fuel : Nat} {w e : Walk σ} (clear : Clear st node image Q w)
    (ended : traverseLoop env st node c offset size fuel w = .exit e) : Clear st node image Q e := by
  obtain ⟨last,holds,⟨_,rfl⟩ | ⟨_,found⟩⟩ := traverseLoopRule (P := Clear st node image Q)
    (fun w after clear _ run => by
      have kept := stepKeeps full allocates large zeroing offset clear
      rwa [run] at kept) clear ended
  · exact holds
  · have kept := findKeeps full allocates large zeroing (blockIndex st offset last) holds
    rwa [found] at kept

end Zeros

structure Making {κ : Type} (create : Create κ) (inode : Nat) (maker : κ) (session : Session κ) : Prop where
  buffer : session.buffer = zeros
  later : Later create inode maker session.maker
  made : ∀ n ∈ session.made, n ≠ 0

section Missing
variable {env : Env} {st : BasicState} {node : Ext2Inode} {offset size : Nat} {κ : Type} {create : Create κ} {maker : κ}

theorem clearStart {σ : Type} {Q : σ → Prop} (large : st.blockSize ≤ 2^32) (world : World) {data : σ} (good : Q data) :
    Clear st node world.disk Q (.start world data) := by
  refine ⟨?_,nofun,fun _ => Nat.two_pow_pos 32,fun _ _ => rfl,rfl,good⟩
  intro t i vacant
  rw [← blockAddr large (vacantLt vacant)]
  exact le32Zero.mp vacant.zero

theorem clearEntry {image disk : Mem} (large : st.blockSize ≤ 2^32) (clear : ClearDisk st node image disk) {t i : Nat}
    (vacant : Vacant st node image t i) : entryAt st disk t i = 0 := by
  rw [entryAt,addr,blockAddr large (vacantLt vacant)]
  exact le32Zero.mpr (clear t i vacant)

theorem recorderZeroing {image : Mem} (fresh : Fresh st node image create maker) :
    Zeroing st node image (recorder env st create offset size) (Making create st.inode maker) := by
  refine ⟨⟨_,rfl,fun session making => ?_⟩,fun world session block t j making => ⟨?_,fun a zero => ?_⟩⟩
  · obtain ⟨nonzero,below,apart,_⟩ := fresh session.maker making.later
    refine ⟨nonzero,below,?_,making.buffer,.call making.later,?_⟩
    · intro i vacant
      obtain ⟨l,named⟩ := vacant.table
      exact apart l named
    · intro n member
      rcases List.mem_cons.mp member with rfl | before
      · exact nonzero
      · exact making.made n before
  · exact ⟨making.buffer,making.later,making.made⟩
  · have written : ((recorder env st create offset size).visit world session block t j).2.1.disk =
        patch world.disk (add64 (mul64 block st.blockSize) j) _ (view session.buffer t) := rfl
    rw [written,making.buffer,patch]
    split
    · rfl
    · exact zero

/-- The number created for a zero pointer is lost: after a write of zeros the pointer is
zero as before. -/
theorem zerosUnrecorded (full : env.Full) (allocates : env.Allocates) (sized : 4 ≤ st.blockSize)
    (large : st.blockSize ≤ 2^32) (held : st.node = some node) {world : World}
    (fresh : Fresh st node world.disk create maker) {i : Nat} (low : i < size)
    (gone : resolved st node world.disk ((offset + i) / st.blockSize) = none) :
    ¬ Records env st node create maker offset size world zeros := by
  intro records
  obtain ⟨fuel,n,after,session,run,recorded⟩ := records
  have run := run 0
  rw [ext2TraverseBlocks,if_neg (by omega),held] at run
  dsimp only at run
  cases loop : traverseLoop env st node (recorder env st create offset size) offset size (fuel + 0)
      (.start world ⟨zeros,maker,[],[]⟩) with
  | next u w => rw [loop] at run; cases run
  | fault f => rw [loop] at run; cases run
  | exit e =>
    rw [loop] at run
    cases run
    have clear := loopKeeps full allocates large (recorderZeroing fresh)
      (clearStart large world ⟨rfl,.start,fun n member => absurd member List.not_mem_nil⟩) loop
    obtain ⟨s,met,zero⟩ := (lookupNone _).mp gone
    obtain ⟨x,visited⟩ := recorded.visited i low
    obtain ⟨missing,_,listed,perm⟩ := recorded.created
    have created : pointer st node (traverseExit env st node e).disk s ∈ e.data.made :=
      perm.mem_iff.mpr (List.mem_map_of_mem ((listed s).mpr ⟨zero,_,x,visited,.inl met⟩))
    have nonzero := clear.data.made _ created
    cases s with
    | direct a => exact nonzero zero
    | top l => exact nonzero zero
    | entry t a =>
      obtain ⟨named,inside⟩ := metNamed (placeWithin st.blockSize _ (by omega)) met
      exact nonzero (clearEntry large (exitClear full large clear) ⟨named,inside,zero⟩)

end Missing

/-- The blocks that a write creates are recorded, whatever the buffer, exactly if every index
of the range leads to a block before it, so that none is created. -/
theorem recordsIff {κ : Type} {env : Env} {st : BasicState} {node : Ext2Inode} {create : Create κ} {maker : κ}
    {offset size : Nat} {world : World} (full : env.Full) (allocates : env.Allocates) (held : st.node = some node)
    (sized : 4 ≤ st.blockSize) (large : st.blockSize ≤ 2^32) (fits : offset + size ≤ 2^64) (short : size < 2^64)
    (sound : Sound st node world.disk) (fresh : Fresh st node world.disk create maker) :
    (∀ buffer, Records env st node create maker offset size world buffer) ↔
      ∀ i < size, (resolved st node world.disk ((offset + i) / st.blockSize)).isSome := by
  constructor
  · intro records i low
    rw [← Option.ne_none_iff_isSome]
    exact fun gone => zerosUnrecorded full allocates sized large held fresh low gone (records zeros)
  · intro mapped
    exact mappedRecords full allocates sized sound held fits short
      (fun i low => Option.isSome_iff_exists.mp (mapped i low)) maker

def spare : Create Unit := fun _ _ => (5,())

theorem spareFresh : Fresh (loneFile (.single 0)).basic (nodeOf (.single 0)) (loneWorld (.single 0)).disk spare () := by
  intro k _
  cases k
  refine ⟨by decide,by decide,?_,?_⟩
  · intro l named
    cases (onlySingle (b := 1) rfl rfl rfl named).2
  · intro led
    obtain ⟨q,within,found⟩ := led
    have few := (loneLookup within found).2
    revert few
    decide

theorem firstRecorded : Records wholeEnv (loneFile (.single 0)).basic (nodeOf (.single 0)) spare () (12 * 1024) 1
    (loneWorld (.single 0)) zeros := by
  have w := singleWritable
  refine (recordsIff w.full w.allocates w.held w.sized.1 (by decide) (by decide) (by decide) w.mapped.sound
    spareFresh).mpr ?_ zeros
  intro i low
  obtain rfl : i = 0 := by omega
  have led : resolved (loneFile (.single 0)).basic (nodeOf (.single 0)) (loneWorld (.single 0)).disk 12 =
    lookup (loneRoots (.single 0)) (loneEntry (.single 0)) (.single 0) :=
    loneImage (.single 0) (show 0 < 256 by decide)
  exact (congrArg Option.isSome led).trans (loneFound (.single 0))

theorem secondLost : Fresh (loneFile (.single 0)).basic (nodeOf (.single 0)) (loneWorld (.single 0)).disk spare () ∧
    ¬ Records wholeEnv (loneFile (.single 0)).basic (nodeOf (.single 0)) spare () (13 * 1024) 1
      (loneWorld (.single 0)) zeros := by
  have w := singleWritable
  refine ⟨spareFresh,zerosUnrecorded w.full w.allocates w.sized.1 (by decide) w.held spareFresh Nat.zero_lt_one ?_⟩
  exact (loneImage (.single 0) (r := .single 1) (show 1 < 256 by decide)).trans (loneOther (by decide))

end Kdrivers.Ext2Create
