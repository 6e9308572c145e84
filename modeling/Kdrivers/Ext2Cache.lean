import Kdrivers.Ext2Traverse
import Kdrivers.IndexTree

/-! What the cached tables of a traversal hold. Each one agrees with the block it was
read from, in the bytes the file layer moves there, so that writing it back changes
nothing; and each stage of findBlock keeps it that way. -/
namespace Kdrivers.Ext2Cache
open Bytes Vfs Ext2State Ext2Traverse IndexTree

def addr (st : BasicState) (block : Nat) : Nat := mul64 block st.blockSize

def span (env : Env) (st : BasicState) (block : Nat) : Nat :=
  min st.blockSize (env.grant 0 (addr st block) st.blockSize)

def Loaded (env : Env) (st : BasicState) (image : Mem) (block : Nat) (table : Mem) : Prop :=
  Agree (span env st block) table 0 image (addr st block)

/- The blocks that may be read as tables of a level, and those that may be handed to the
callback: closed under what the tables name. -/
abbrev Tables := Level → Nat → Prop

structure Closed (env : Env) (st : BasicState) (node : Ext2Inode) (image : Mem) (T : Tables)
    (D : Nat → Prop) : Prop where
  top : ∀ l, node.top l ≠ 0 → T l (node.top l)
  entry : ∀ {upper lower}, Over upper lower → ∀ {block table i}, T upper block →
    Loaded env st image block table → i < st.blockSize / 4 → le32 table (4 * i) ≠ 0 →
    T lower (le32 table (4 * i))
  direct : ∀ i < 12, node.direct i ≠ 0 → D (node.direct i)
  leaf : ∀ {block table i}, T .single block → Loaded env st image block table → i < st.blockSize / 4 →
    le32 table (4 * i) ≠ 0 → D (le32 table (4 * i))

theorem closedAll (env : Env) (st : BasicState) (node : Ext2Inode) (image : Mem) :
    Closed env st node image (fun _ t => t < 2^32) fun b => b < 2^32 :=
  ⟨fun l _ => topLt node l,fun _ _ _ _ _ _ _ _ => le32Lt _ _,fun i _ _ => directLt node i,
    fun _ _ _ _ => le32Lt _ _⟩

def Kept (env : Env) (st : BasicState) (image : Mem) (T : Tables) (disk : Mem) : Prop :=
  ∀ l t, T l t → Agree (span env st t) disk (addr st t) image (addr st t)

theorem keptRefl (env : Env) (st : BasicState) (image : Mem) (T : Tables) : Kept env st image T image :=
  fun _ _ _ _ _ => rfl

def Barren {σ : Type} (c : Client σ) : Prop := ∀ f, c.create = some f → ∀ data inode, f data inode = (0,data)

structure Setting {σ : Type} (env : Env) (st : BasicState) (node : Ext2Inode) (c : Client σ)
    (image : Mem) (T : Tables) (D : Nat → Prop) : Prop where
  stable : env.Stable
  barren : Barren c
  closed : Closed env st node image T D

structure Cached {σ : Type} (env : Env) (st : BasicState) (node : Ext2Inode) (image : Mem) (T : Tables)
    (w : Walk σ) : Prop where
  kept : Kept env st image T w.world.disk
  held : ∀ l table, w.table l = some table →
    home node w l ≠ 0 ∧ T l (home node w l) ∧ Loaded env st image (home node w l) table
  empty : ∀ l, w.table l = none → w.last l = 0
  top : w.last .triple = 0

def homes {σ : Type} (node : Ext2Inode) (w : Walk σ) : Homes := fun l => (w.table l).map fun _ => home node w l

section Stages
variable {σ : Type} {env : Env} {st : BasicState} {node : Ext2Inode} {c : Client σ} {image : Mem}
  {T : Tables} {D : Nat → Prop}

theorem loadBlockBarren (barren : Barren c) (block : Nat) (data : σ) :
    ext2LoadBlock st c block data = (block,data) := by
  unfold ext2LoadBlock
  split
  · rfl
  · rename_i zero
    rw [not_not.mp zero]
    cases made : c.create with
    | none => rfl
    | some f => exact barren f made data st.inode

theorem movedSpan (stable : env.Stable) (k block : Nat) :
    min st.blockSize (env.grant k (addr st block) st.blockSize) = span env st block := stable k 0 _ _

/-- Writing a table back to the block it agrees with leaves the partition as it is. -/
theorem writeTableKeeps (stable : env.Stable) {world : World} {block : Nat} {table : Mem}
    (same : Agree (span env st block) table 0 world.disk (addr st block)) :
    (writeTable env st world block (some table)).disk = world.disk := by
  simp only [writeTable,vfsWrite,vfsSeek]
  rw [show mul64 block st.blockSize = addr st block from rfl,movedSpan stable]
  exact patchSelf fun i below => by simpa using same i below

theorem loadReadCases (set : Setting env st node c image T D) (block : Nat) (out : Option Mem)
    (world : World) (data : σ) :
    ∃ r table after, ext2LoadReadBlock env st c block out world data = (r,table,after,data) ∧
      after.disk = world.disk ∧
      ((r ≠ 0 ∧ table = none ∧ ¬ env.Allocates) ∨
       (r ≠ 0 ∧ block = 0 ∧ ((out.isSome ∧ table = out) ∨ ∃ k, table = env.fresh k)) ∨
       (r = 0 ∧ block ≠ 0 ∧ ∃ t, table = some t ∧ Agree (span env st block) t 0 world.disk (addr st block))) := by
  have filled (buffer : Mem) (w : World) : Agree (span env st block)
      (vfsRead env (vfsSeek w (addr st block)) buffer 0 st.blockSize).2.1 0 w.disk (addr st block) := by
    intro i below
    simp only [vfsRead,vfsSeek,movedSpan set.stable]
    rw [patchInside (by omega) (by omega)]
    simp
  unfold ext2LoadReadBlock
  cases out with
  | some buffer =>
    simp only [loadBlockBarren set.barren]
    by_cases zero : block = 0
    · exact ⟨-3,some buffer,world,by simp [zero],rfl,.inr (.inl ⟨by decide,zero,.inl ⟨rfl,rfl⟩⟩)⟩
    · exact ⟨0,_,(vfsRead env (vfsSeek world (addr st block)) buffer 0 st.blockSize).2.2,
        by simp only [if_pos zero]; rfl,rfl,.inr (.inr ⟨rfl,zero,_,rfl,filled buffer world⟩)⟩
  | none =>
    cases fresh : env.fresh world.allocs with
    | none =>
      refine ⟨-2,none,(alloc env world).2,by simp [alloc,fresh],rfl,.inl ⟨by decide,rfl,?_⟩⟩
      intro all
      have some := all world.allocs
      simp [fresh] at some
    | some buffer =>
      simp only [alloc,fresh,loadBlockBarren set.barren]
      by_cases zero : block = 0
      · refine ⟨-3,some buffer,{ world with allocs := world.allocs + 1 },by simp [zero],rfl,
          .inr (.inl ⟨by decide,zero,.inr ⟨world.allocs,fresh.symm⟩⟩)⟩
      · let grown := { world with allocs := world.allocs + 1 }
        exact ⟨0,_,(vfsRead env (vfsSeek grown (addr st block)) buffer 0 st.blockSize).2.2,
          by simp only [if_pos zero]; rfl,rfl,.inr (.inr ⟨rfl,zero,_,rfl,filled buffer grown⟩)⟩

def Same (w after : Walk σ) : Prop :=
  after.world.disk = w.world.disk ∧ after.data = w.data ∧ after.traversed = w.traversed

theorem Same.trans {a b d : Walk σ} (first : Same a b) (second : Same b d) : Same a d :=
  ⟨second.1.trans first.1,second.2.1.trans first.2.1,second.2.2.trans first.2.2⟩

def Spilled (env : Env) (node : Ext2Inode) (l : Level) (w after : Walk σ) : Prop :=
  node.top l = 0 ∧ w.table l = none ∧ ∃ k world, world.disk = w.world.disk ∧
    after = { w with world := world, table := Function.update w.table l (env.fresh k) }

theorem agreeTrans {n : Nat} {a b d : Mem} {p q r : Nat} (left : Agree n a p b q) (right : Agree n d r b q) :
    Agree n a p d r := fun i below => (left i below).trans (right i below).symm

theorem loadedNow {disk : Mem} (kept : Kept env st image T disk) {l : Level} {block : Nat} {table : Mem}
    (member : T l block) (agree : Agree (span env st block) table 0 disk (addr st block)) :
    Loaded env st image block table := fun i below => (agree i below).trans (kept l block member i below)

theorem cachedUpdate {w : Walk σ} (cached : Cached env st node image T w) {world : World}
    (disk : world.disk = w.world.disk) {l : Level} {block last : Nat} {t : Mem}
    (found : block = if last = 0 then node.top l else last) (lone : l = .triple → last = 0)
    (nonzero : block ≠ 0) (member : T l block) (loaded : Loaded env st image block t) :
    Cached env st node image T { w with
      world := world
      table := Function.update w.table l (some t)
      last := Function.update w.last l last } := by
  refine ⟨by rw [disk]; exact cached.kept,?_,?_,?_⟩
  · intro m table same
    by_cases here : m = l
    · cases here
      have same : some t = some table := by simpa using same
      cases same
      have place : home node { w with
          world := world
          table := Function.update w.table l (some t)
          last := Function.update w.last l last } l = block := by
        simp only [home,Function.update_self]
        exact found.symm
      rw [place]
      exact ⟨nonzero,member,loaded⟩
    · simp only [home,Function.update_of_ne here] at same ⊢
      exact cached.held m table same
  · intro m none
    by_cases here : m = l
    · cases here
      simp at none
    · simp only [Function.update_of_ne here] at none ⊢
      exact cached.empty m none
  · by_cases here : l = .triple
    · cases here
      simp [lone rfl]
    · simp only [Function.update_of_ne (Ne.symm here)]
      exact cached.top

theorem homesUpdate (w : Walk σ) (world : World) (t : Mem) {l : Level} {block last : Nat}
    (found : block = if last = 0 then node.top l else last) :
    homes node { w with
      world := world
      table := Function.update w.table l (some t)
      last := Function.update w.last l last } = Function.update (homes node w) l (some block) := by
  funext m
  by_cases here : m = l
  · cases here
    simp [homes,home,found]
  · simp [homes,home,Function.update_of_ne here]

/-- A top table is there afterwards, or the walk exits: without memory, or with its
buffer spilled. -/
theorem topCases (set : Setting env st node c image T D) {w : Walk σ} (cached : Cached env st node image T w)
    (l : Level) :
    (∃ after table t, loadTop env st node c l w = .next () after ∧ Cached env st node image T after ∧
      Same w after ∧ after.table l = some table ∧ T l t ∧ Loaded env st image t table ∧
      homes node after = Function.update (homes node w) l (some t) ∧
      ∀ next r, next t r → topOf (homes node w l) (node.top l) next r) ∨
    (∃ after, loadTop env st node c l w = .exit after ∧
      ((¬ env.Allocates ∧ Cached env st node image T after ∧ Same w after) ∨
       (topOf (homes node w l) (node.top l) (fun _ _ => False) .spill ∧ Spilled env node l w after))) := by
  unfold loadTop
  cases held : w.table l with
  | some table =>
    obtain ⟨_,member,loaded⟩ := cached.held l table held
    have here : homes node w l = some (home node w l) := by simp [homes,held]
    exact .inl ⟨w,table,home node w l,rfl,cached,⟨rfl,rfl,rfl⟩,held,member,loaded,
      by rw [← here,Function.update_eq_self],by rw [here]; exact fun _ _ => id⟩
  | none =>
    have missing : homes node w l = none := by simp [homes,held]
    have last : w.last l = 0 := cached.empty l held
    have unchanged : w.last = Function.update w.last l 0 := by rw [← last,Function.update_eq_self]
    obtain ⟨r,out,world,run,disk,cases⟩ := loadReadCases set (node.top l) none w.world w.data
    simp only [run,missing]
    rcases cases with ⟨bad,rfl,poor⟩ | ⟨bad,zero,⟨some,_⟩ | ⟨k,rfl⟩⟩ | ⟨good,nonzero,t,rfl,agree⟩
    · have back : Function.update w.table l none = w.table := by rw [← held,Function.update_eq_self]
      rw [back]
      exact .inr ⟨_,if_neg bad,.inl ⟨poor,⟨by rw [disk]; exact cached.kept,cached.held,cached.empty,
        cached.top⟩,disk,rfl,rfl⟩⟩
    · cases some
    · exact .inr ⟨_,if_neg bad,.inr ⟨.inl ⟨zero,rfl⟩,zero,held,k,world,disk,rfl⟩⟩
    · have member := set.closed.top l nonzero
      have loaded := loadedNow cached.kept member agree
      have found : node.top l = if (0 : Nat) = 0 then node.top l else 0 := (if_pos rfl).symm
      have grown := cachedUpdate cached disk found (fun _ => rfl) nonzero member loaded
      have moved := homesUpdate w world t found
      rw [← unchanged] at grown moved
      exact .inl ⟨_,t,node.top l,if_pos good,grown,⟨disk,rfl,rfl⟩,by simp,member,loaded,moved,
        fun next r led => .inr ⟨nonzero,led⟩⟩

/-- Below a loaded table: the entry is zero, or the next table is loaded from the block
it names, or the allocation failed and the table is missing. -/
theorem switchCases (set : Setting env st node c image T D) {w : Walk σ} {upper lower : Level} {above : Mem}
    {i : Nat} (higher : Over upper lower) (cached : Cached env st node image T w)
    (held : w.table upper = some above) (inside : i < st.blockSize / 4) :
    ∃ after, Same w after ∧
      ((switchTable env st c upper lower i w = .next () after ∧ Cached env st node image T after ∧
          le32 above (4 * i) ≠ 0 ∧ ∃ table, after.table lower = some table ∧ T lower (le32 above (4 * i)) ∧
          Loaded env st image (le32 above (4 * i)) table ∧
          homes node after = Function.update (homes node w) lower (some (le32 above (4 * i)))) ∨
       (switchTable env st c upper lower i w = .exit after ∧ Cached env st node image T after ∧
          le32 above (4 * i) = 0) ∨
       (switchTable env st c upper lower i w = .next () after ∧ ¬ env.Allocates ∧ after.table lower = none)) := by
  obtain ⟨_,member,loaded⟩ := cached.held upper above held
  have inner := set.closed.entry higher member loaded inside
  unfold switchTable
  simp only [held,loadBlockBarren set.barren]
  by_cases zero : le32 above (4 * i) = 0
  · exact ⟨w,⟨rfl,rfl,rfl⟩,.inr (.inl ⟨if_pos zero,cached,zero⟩)⟩
  simp only [if_neg zero]
  by_cases again : le32 above (4 * i) = w.last lower
  · have nonzero : w.last lower ≠ 0 := again ▸ zero
    have place : home node w lower = le32 above (4 * i) := by rw [again]; exact if_neg nonzero
    cases same : w.table lower with
    | none => exact absurd (cached.empty lower same) nonzero
    | some table =>
      obtain ⟨_,_,loaded⟩ := cached.held lower table same
      rw [place] at loaded
      have here : homes node w lower = some (le32 above (4 * i)) := by simp [homes,same,place]
      exact ⟨w,⟨rfl,rfl,rfl⟩,.inl ⟨if_pos again,cached,zero,table,same,inner zero,loaded,
        by rw [← here,Function.update_eq_self]⟩⟩
  simp only [if_neg again]
  have disk : (if w.last lower ≠ 0 then writeTable env st w.world (w.last lower) (w.table lower)
      else w.world).disk = w.world.disk := by
    split
    · rename_i nonzero
      cases same : w.table lower with
      | none => rfl
      | some table =>
        obtain ⟨_,member,loaded⟩ := cached.held lower table same
        have place : home node w lower = w.last lower := if_neg nonzero
        rw [place] at member loaded
        exact writeTableKeeps set.stable (agreeTrans loaded (cached.kept lower _ member))
    · rfl
  obtain ⟨r,out,world,run,moved,cases⟩ := loadReadCases set (le32 above (4 * i)) (w.table lower)
    (if w.last lower ≠ 0 then writeTable env st w.world (w.last lower) (w.table lower) else w.world) w.data
  simp only [run]
  refine ⟨{ w with
    world := world
    table := Function.update w.table lower out
    last := Function.update w.last lower (le32 above (4 * i)) },⟨moved.trans disk,rfl,rfl⟩,?_⟩
  rcases cases with ⟨_,rfl,poor⟩ | ⟨_,none,_⟩ | ⟨_,_,t,rfl,agree⟩
  · exact .inr (.inr ⟨rfl,poor,by simp⟩)
  · exact absurd none zero
  · rw [disk] at agree
    have loaded := loadedNow cached.kept (inner zero) agree
    have found : le32 above (4 * i) = if le32 above (4 * i) = 0 then node.top lower else le32 above (4 * i) :=
      (if_neg zero).symm
    have lone : lower = .triple → le32 above (4 * i) = 0 := by rintro rfl; cases higher
    exact .inl ⟨rfl,cachedUpdate cached (moved.trans disk) found lone zero (inner zero) loaded,zero,t,by simp,
      inner zero,loaded,homesUpdate w world t found⟩

end Stages

end Kdrivers.Ext2Cache
