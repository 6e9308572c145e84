import Kdrivers.Ext2ReadOnly

/-! Reading an inode from a partition that moves as much of each transfer as it likes. A ledger
keeps for every cached table how many of its bytes were read, against what is written back. -/
namespace Kdrivers.Ext2Ledger
open Bytes Vfs Ext2State Ext2Traverse Ext2Cache Ext2Resolve Ext2ReadOnly IndexTree

/- A cached table: its block, how much of it was read, and whether an entry named it. -/
structure Copy where
  block : Nat
  read : Nat
  named : Bool

structure Ledger where
  calls : Nat
  allocs : Nat
  copy : Level → Option Copy

inductive End where
  | found (block : Nat) (L : Ledger)
  | left (L : Ledger)
  | spill
  | spoiled

section
variable (env : Env) (st : BasicState) (node : Ext2Inode) (image : Mem)

def moves (k block : Nat) : Nat := min st.blockSize (env.grant k (addr st block) st.blockSize)

def Ledger.load (L : Ledger) (l : Level) (block : Nat) (named : Bool) : Ledger :=
  ⟨L.calls + 1,L.allocs,Function.update L.copy l (some ⟨block,moves env st L.calls block,named⟩)⟩

def Ledger.Covers (L : Ledger) (l : Level) : Prop := ∀ c, L.copy l = some c → moves env st L.calls c.block ≤ c.read

def Ledger.back (L : Ledger) (l : Level) : Ledger := if (L.copy l).isSome then { L with calls := L.calls + 1 } else L

def Ledger.Returns (L : Ledger) : Prop := L.Covers env st .triple ∧ (L.back .triple).Covers env st .double ∧
  ((L.back .triple).back .double).Covers env st .single

def End.Fine : End → Prop
  | .found _ _ => True
  | .left L => L.Returns env st
  | .spill => False
  | .spoiled => False

def Shows (c : Copy) (i pointer : Nat) : Prop :=
  i < st.blockSize / 4 ∧ ∃ table, Agree c.read table 0 image (addr st c.block) ∧ pointer = le32 table (4 * i)

abbrev Next := Copy → Ledger → End → Prop

def fill (l : Level) (block : Nat) (named : Bool) (next : Next) (L : Ledger) (e : End) : Prop :=
  next ⟨block,moves env st L.calls block,named⟩ (L.load env st l block named) e

def topOf (l : Level) (next : Next) (L : Ledger) (e : End) : Prop := match L.copy l with
  | some c => next c L e
  | none =>
    if env.fresh L.allocs = none then e = .left { L with allocs := L.allocs + 1 }
    else if node.top l = 0 then e = .spill
    else fill env st l (node.top l) false next { L with allocs := L.allocs + 1 } e

def replaced (l : Level) (pointer : Nat) (next : Next) (L : Ledger) (e : End) : Prop := match L.copy l with
  | none => env.fresh L.allocs ≠ none ∧ fill env st l pointer true next { L with allocs := L.allocs + 1 } e
  | some c =>
    if c.named = false then fill env st l pointer true next L e
    else if c.block = pointer then next c L e
    else (¬ L.Covers env st l ∧ e = .spoiled) ∨
      (L.Covers env st l ∧ fill env st l pointer true next { L with calls := L.calls + 1 } e)

def entryOf (l : Level) (i : Nat) (next : Next) (c : Copy) (L : Ledger) (e : End) : Prop :=
  ∃ pointer, Shows st image c i pointer ∧ if pointer = 0 then e = .left L else replaced env st l pointer next L e

def leafOf (i : Nat) (c : Copy) (L : Ledger) (e : End) : Prop :=
  ∃ pointer, Shows st image c i pointer ∧ e = if pointer = 0 then .left L else .found pointer L

def Finds : Path → Ledger → End → Prop
  | .direct i => fun L e => e = if node.direct i = 0 then .left L else .found (node.direct i) L
  | .single i => topOf env st node .single (leafOf st image i)
  | .double i j => topOf env st node .double (entryOf env st image .single i (leafOf st image j))
  | .triple i j k => topOf env st node .triple (entryOf env st image .double i
      (entryOf env st image .single j (leafOf st image k)))

def advance (offset size k block t : Nat) : Nat := min (copySize st offset size t)
  (env.grant k (add64 (addr st block) (jankAt st offset t)) (copySize st offset size t))

/- The positions that a read comes to, each with its ledger. -/
inductive Trail (world : World) (offset size : Nat) : Nat → Ledger → Prop where
  | start : Trail world offset size 0 ⟨world.calls,world.allocs,fun _ => none⟩
  | step {t block : Nat} {L M : Ledger} : Trail world offset size t L → t < size →
      Finds env st node image (place st.blockSize (indexAt st offset t)) L (.found block M) →
      Trail world offset size (add64 t (advance env st offset size M.calls block t)) { M with calls := M.calls + 1 }

/-- No top table is wanted whose pointer is zero, and no table is written back with more bytes
than were read of it. -/
def Clean (world : World) (offset size : Nat) : Prop :=
  ∀ t L, Trail env st node image world offset size t L →
    if t < size then ∀ e, Finds env st node image (place st.blockSize (indexAt st offset t)) L e → e.Fine env st
    else L.Returns env st

end

inductive Copied (st : BasicState) (image : Mem) (top : Nat) : Option Mem → Nat → Option Copy → Prop where
  | none : Copied st image top none 0 none
  | top {table : Mem} {read : Nat} (agree : Agree read table 0 image (addr st top)) :
      Copied st image top (some table) 0 (some ⟨top,read,false⟩)
  | entry {table : Mem} {read block : Nat} (nonzero : block ≠ 0) (agree : Agree read table 0 image (addr st block)) :
      Copied st image top (some table) block (some ⟨block,read,true⟩)

structure Held (st : BasicState) (node : Ext2Inode) (image : Mem) (w : Walk Mem) (L : Ledger) : Prop where
  disk : w.world.disk = image
  calls : w.world.calls = L.calls
  allocs : w.world.allocs = L.allocs
  copies : ∀ l, Copied st image (node.top l) (w.table l) (w.last l) (L.copy l)
  lone : w.last .triple = 0

def Shown (st : BasicState) (node : Ext2Inode) (image : Mem) (t : Nat) (x : Flow Mem Nat) : End → Prop
  | .found block M => ∃ w, x = .next block w ∧ Held st node image w M ∧ w.traversed = t
  | .left M => ∃ w, x = .exit w ∧ Held st node image w M
  | .spill => True
  | .spoiled => True

def Ends (st : BasicState) (node : Ext2Inode) (image : Mem) (t : Nat) (allowed : End → Prop) (x : Flow Mem Nat) : Prop :=
  (∃ f, x = .fault f) ∨ ∃ e, allowed e ∧ Shown st node image t x e

section
variable {env : Env} {st : BasicState} {node : Ext2Inode} {image : Mem} {size : Nat} {w : Walk Mem} {L : Ledger}

theorem endsMono {t : Nat} {allowed weaker : End → Prop} {x : Flow Mem Nat} (ends : Ends st node image t allowed x)
    (weak : ∀ e, allowed e → weaker e) : Ends st node image t weaker x := by
  obtain fault | ⟨e,here,shown⟩ := ends
  · exact .inl fault
  · exact .inr ⟨e,weak e here,shown⟩

theorem copiedHome {l : Level} {c : Copy} (copied : Copied st image (node.top l) (w.table l) (w.last l) (some c)) :
    ∃ table, w.table l = some table ∧ home node w l = c.block ∧ Agree c.read table 0 image (addr st c.block) ∧
      (c.named = true ↔ w.last l ≠ 0) := by
  generalize held : w.table l = table at copied
  generalize last : w.last l = block at copied
  cases copied with
  | top agree => exact ⟨_,rfl,by rw [home,if_pos last],agree,by simp⟩
  | entry nonzero agree => exact ⟨_,rfl,by rw [home,last,if_neg nonzero],agree,by simp [nonzero]⟩

theorem copiedNone {l : Level} (copied : Copied st image (node.top l) (w.table l) (w.last l) none) :
    w.table l = none ∧ w.last l = 0 := by
  generalize w.table l = table at copied
  generalize w.last l = block at copied
  cases copied
  exact ⟨rfl,rfl⟩

variable (st) in
theorem readAgrees (env : Env) (buffer : Mem) (world : World) (block : Nat) :
    Agree (moves env st world.calls block) (vfsRead env (vfsSeek world (addr st block)) buffer 0 st.blockSize).2.1 0
      world.disk (addr st block) := by
  intro i low
  have here : (vfsRead env (vfsSeek world (addr st block)) buffer 0 st.blockSize).2.1 =
    patch buffer 0 (moves env st world.calls block) (view world.disk (addr st block)) := rfl
  rw [here,patchInside (by omega) (by omega),viewApply,Nat.zero_add,Nat.sub_zero]

theorem writeCovered {world : World} {block read : Nat} {table : Mem}
    (agree : Agree read table 0 world.disk (addr st block)) (covered : moves env st world.calls block ≤ read) :
    (writeTable env st world block (some table)).disk = world.disk := by
  change patch world.disk (addr st block) (moves env st world.calls block) (view table 0) = world.disk
  exact patchSelf fun i low => by simpa using agree i (by omega)

theorem loadReadInto {block : Nat} (nonzero : block ≠ 0) (buffer : Mem) (world : World) (data : Mem) :
    ext2LoadReadBlock env st (readClient env st size) block (some buffer) world data =
      (0,some (vfsRead env (vfsSeek world (addr st block)) buffer 0 st.blockSize).2.1,
        (vfsRead env (vfsSeek world (addr st block)) buffer 0 st.blockSize).2.2,data) := by
  unfold ext2LoadReadBlock
  simp only [loadBlockBarren (barrenRead env st size),if_pos nonzero]
  rfl

theorem loadReadFresh {world : World} {buffer : Mem} (fresh : env.fresh world.allocs = some buffer) (block : Nat) (data : Mem) :
    ext2LoadReadBlock env st (readClient env st size) block none world data =
      ext2LoadReadBlock env st (readClient env st size) block (some buffer) { world with allocs := world.allocs + 1 } data := by
  simp only [ext2LoadReadBlock,alloc,fresh]

variable (env) in
theorem heldFilled (world : World) (buffer : Mem) (named : Bool) (copies : ∀ l, Copied st image (node.top l) (w.table l) (w.last l) (L.copy l))
    (lone : w.last .triple = 0) {l : Level} {block : Nat} (disk : world.disk = image)
    (calls : world.calls = L.calls) (allocs : world.allocs = L.allocs)
    (place : if named then block ≠ 0 ∧ l ≠ .triple else block = node.top l) :
    Held st node image { w with
      world := (vfsRead env (vfsSeek world (addr st block)) buffer 0 st.blockSize).2.2
      table := Function.update w.table l (some (vfsRead env (vfsSeek world (addr st block)) buffer 0 st.blockSize).2.1)
      last := Function.update w.last l (if named then block else 0) } (L.load env st l block named) := by
  have agree := readAgrees st env buffer world block
  rw [disk,calls] at agree
  refine ⟨disk,congrArg (· + 1) calls,allocs,fun m => ?_,?_⟩
  · by_cases here : m = l
    · subst here
      simp only [Ledger.load,Function.update_self]
      cases named with
      | false =>
        obtain rfl : block = node.top m := place
        exact .top agree
      | true => exact .entry place.1 agree
    · simp only [Ledger.load,Function.update_of_ne here]
      exact copies m
  · by_cases here : l = .triple
    · subst here
      cases named with
      | false =>
        dsimp only
        rw [Function.update_self]
        rfl
      | true => exact absurd rfl place.2
    · exact (Function.update_of_ne (Ne.symm here) ..).trans lone

def Carries (st : BasicState) (node : Ext2Inode) (image : Mem) (t : Nat) (l : Level) (next : Next)
    (f : Walk Mem → Flow Mem Nat) : Prop :=
  ∀ w c M, Held st node image w M → w.traversed = t → M.copy l = some c → Ends st node image t (next c M) (f w)

theorem topEnds (held : Held st node image w L) {l : Level} {next : Next} {f : Walk Mem → Flow Mem Nat}
    (rest : Carries st node image w.traversed l next f) : Ends st node image w.traversed (topOf env st node l next L)
      ((loadTop env st node (readClient env st size) l w).bind fun _ w => f w) := by
  cases copy : L.copy l with
  | some c =>
    have top : topOf env st node l next L = next c L := by
      funext e
      simp only [topOf,copy]
    obtain ⟨table,here,_⟩ := copiedHome (copy ▸ held.copies l)
    rw [top,loadTop,here]
    exact rest w c L held rfl copy
  | none =>
    obtain ⟨missing,last⟩ := copiedNone (copy ▸ held.copies l)
    rw [loadTop,missing]
    cases fresh : env.fresh w.world.allocs with
    | none =>
      have top : topOf env st node l next L (.left { L with allocs := L.allocs + 1 }) := by
        simp only [topOf,copy,if_pos (held.allocs ▸ fresh)]
      have back : Function.update w.table l none = w.table := by rw [← missing,Function.update_eq_self]
      refine .inr ⟨_,top,{ w with world := { w.world with allocs := w.world.allocs + 1 } },?_,
        held.disk,held.calls,congrArg (· + 1) held.allocs,held.copies,held.lone⟩
      simp only [ext2LoadReadBlock,alloc,fresh,back]
      rfl
    | some buffer =>
      have given : ¬ env.fresh L.allocs = none := by
        rw [← held.allocs,fresh]
        exact Option.some_ne_none buffer
      have top : topOf env st node l next L = fun e => if node.top l = 0 then e = .spill
          else fill env st l (node.top l) false next { L with allocs := L.allocs + 1 } e := by
        funext e
        simp only [topOf,copy]
        rw [if_neg given]
      rw [top]
      by_cases zero : node.top l = 0
      · exact .inr ⟨.spill,by simp only [if_pos zero],trivial⟩
      · simp only [if_neg zero,loadReadFresh fresh,loadReadInto zero]
        have filled := heldFilled env (L := { L with allocs := L.allocs + 1 }) (l := l)
          { w.world with allocs := w.world.allocs + 1 } buffer false held.copies held.lone held.disk held.calls
          (congrArg (· + 1) held.allocs) rfl
        have kept : Function.update w.last l (if false = true then node.top l else 0) = w.last := by
          rw [if_neg Bool.false_ne_true,← last,Function.update_eq_self]
        rw [kept] at filled
        exact rest _ _ _ filled rfl (Function.update_self ..)

theorem loadReadMissing {world : World} (fresh : env.fresh world.allocs = none) (block : Nat) (data : Mem) :
    ext2LoadReadBlock env st (readClient env st size) block none world data =
      (-2,none,{ world with allocs := world.allocs + 1 },data) := by
  simp only [ext2LoadReadBlock,alloc,fresh]

variable (env) in
theorem fillEnds (world : World) (buffer : Mem) (copies : ∀ l, Copied st image (node.top l) (w.table l) (w.last l) (L.copy l))
    (lone : w.last .triple = 0) {l : Level} {pointer : Nat} (disk : world.disk = image) (calls : world.calls = L.calls)
    (allocs : world.allocs = L.allocs) (nonzero : pointer ≠ 0) (low : l ≠ .triple) {next : Next}
    {f : Walk Mem → Flow Mem Nat} (rest : Carries st node image w.traversed l next f) :
    Ends st node image w.traversed (fill env st l pointer true next L) (f { w with
      world := (vfsRead env (vfsSeek world (addr st pointer)) buffer 0 st.blockSize).2.2
      table := Function.update w.table l (some (vfsRead env (vfsSeek world (addr st pointer)) buffer 0 st.blockSize).2.1)
      last := Function.update w.last l pointer }) :=
  rest _ _ _ (heldFilled env world buffer true copies lone disk calls allocs ⟨nonzero,low⟩) rfl (Function.update_self ..)

variable (env size) in
theorem replaceEnds (held : Held st node image w L) {l : Level} (low : l ≠ .triple) {pointer : Nat} (nonzero : pointer ≠ 0)
    {next : Next} {f : Walk Mem → Flow Mem Nat} (gone : ∀ w, w.table l = none → f w = .fault .nullPointer)
    (rest : Carries st node image w.traversed l next f) : Ends st node image w.traversed (replaced env st l pointer next L)
      (if pointer = w.last l then f w
      else
        let world := if w.last l ≠ 0 then writeTable env st w.world (w.last l) (w.table l) else w.world
        let (_,out,world,data) := ext2LoadReadBlock env st (readClient env st size) pointer (w.table l) world w.data
        f { w with
          world := world
          data := data
          table := Function.update w.table l out
          last := Function.update w.last l pointer }) := by
  cases copy : L.copy l with
  | none =>
    obtain ⟨missing,last⟩ := copiedNone (copy ▸ held.copies l)
    rw [last,if_neg nonzero,missing,if_neg (not_not.mpr rfl)]
    cases fresh : env.fresh w.world.allocs with
    | none =>
      refine .inl ⟨.nullPointer,?_⟩
      simp only [loadReadMissing fresh]
      exact gone _ (Function.update_self ..)
    | some buffer =>
      simp only [loadReadFresh fresh,loadReadInto nonzero]
      have given : env.fresh L.allocs ≠ none := by
        rw [← held.allocs,fresh]
        exact Option.some_ne_none buffer
      have replaces : replaced env st l pointer next L = fun e => env.fresh L.allocs ≠ none ∧
          fill env st l pointer true next { L with allocs := L.allocs + 1 } e := by
        funext e
        simp only [replaced,copy]
      rw [replaces]
      obtain fault | ⟨e,filled,shown⟩ := fillEnds env (L := { L with allocs := L.allocs + 1 })
        { w.world with allocs := w.world.allocs + 1 } buffer held.copies held.lone held.disk held.calls
        (congrArg (· + 1) held.allocs) nonzero low rest
      · exact .inl fault
      · exact .inr ⟨e,⟨given,filled⟩,shown⟩
  | some c =>
    obtain ⟨table,here,place,agree,named⟩ := copiedHome (copy ▸ held.copies l)
    rw [here]
    by_cases top : c.named = false
    · have last : w.last l = 0 := by
        by_contra some
        rw [named.mpr some] at top
        cases top
      have replaces : replaced env st l pointer next L = fill env st l pointer true next L := by
        funext e
        simp only [replaced,copy,if_pos top]
      rw [replaces,last,if_neg nonzero,if_neg (not_not.mpr rfl)]
      simp only [loadReadInto nonzero]
      exact fillEnds env w.world table held.copies held.lone held.disk held.calls held.allocs nonzero low rest
    · have some : w.last l ≠ 0 := named.mp (Bool.eq_true_of_not_eq_false top)
      have last : w.last l = c.block := by rw [← place,home,if_neg some]
      by_cases again : pointer = w.last l
      · have replaces : replaced env st l pointer next L = next c L := by
          funext e
          simp only [replaced,copy,if_neg top,if_pos (last.symm.trans again.symm)]
        rw [replaces,if_pos again]
        exact rest w c L held rfl copy
      · have replaces : replaced env st l pointer next L = fun e => (¬ L.Covers env st l ∧ e = .spoiled) ∨
            (L.Covers env st l ∧ fill env st l pointer true next { L with calls := L.calls + 1 } e) := by
          have other : ¬ c.block = pointer := fun same => again (same.symm.trans last.symm)
          funext e
          simp only [replaced,copy,if_neg top,if_neg other]
        rw [replaces,if_neg again,if_pos some]
        by_cases covers : L.Covers env st l
        · have kept : (writeTable env st w.world (w.last l) (Option.some table)).disk = image := by
            rw [last]
            exact (writeCovered (held.disk ▸ agree) (held.calls ▸ covers c copy)).trans held.disk
          simp only [loadReadInto nonzero]
          obtain fault | ⟨e,filled,shown⟩ := fillEnds env (L := { L with calls := L.calls + 1 })
            (writeTable env st w.world (w.last l) (Option.some table)) table held.copies held.lone kept
            (congrArg (· + 1) held.calls) held.allocs nonzero low rest
          · exact .inl fault
          · exact .inr ⟨e,.inr ⟨covers,filled⟩,shown⟩
        · exact .inr ⟨.spoiled,.inl ⟨covers,rfl⟩,trivial⟩

theorem entryEnds {upper l : Level} (low : l ≠ .triple) {i : Nat} (inside : i < st.blockSize / 4) {next : Next} {t : Nat}
    {f : Walk Mem → Flow Mem Nat} (gone : ∀ w, w.table l = none → f w = .fault .nullPointer)
    (rest : Carries st node image t l next f) : Carries st node image t upper (entryOf env st image l i next) fun w =>
      (switchTable env st (readClient env st size) upper l i w).bind fun _ w => f w := by
  intro w c M held same copy
  subst same
  obtain ⟨table,here,place,agree,_⟩ := copiedHome (copy ▸ held.copies upper)
  have shows : Shows st image c i (le32 table (4 * i)) := ⟨inside,table,agree,rfl⟩
  simp only [switchTable,here,loadBlockBarren (barrenRead env st size)]
  by_cases zero : le32 table (4 * i) = 0
  · exact .inr ⟨.left M,⟨_,shows,by rw [if_pos zero]⟩,w,by rw [if_pos zero]; rfl,held⟩
  · have entered (e : End) (replaced : replaced env st l (le32 table (4 * i)) next M e) :
        entryOf env st image l i next c M e := ⟨_,shows,by rwa [if_neg zero]⟩
    have onward := endsMono (replaceEnds env size held low zero gone rest) entered
    rw [if_neg zero]
    by_cases again : le32 table (4 * i) = w.last l
    · rw [if_pos again] at onward ⊢
      exact onward
    · rw [if_neg again] at onward ⊢
      exact onward

theorem leafEnds {i : Nat} (inside : i < st.blockSize / 4) (t : Nat) :
    Carries st node image t .single (leafOf st image i) (skipDibp st (readClient env st size) i) := by
  intro w c M held same copy
  obtain ⟨table,here,place,agree,_⟩ := copiedHome (copy ▸ held.copies .single)
  have shows : Shows st image c i (le32 table (4 * i)) := ⟨inside,table,agree,rfl⟩
  simp only [skipDibp,here,loadBlockBarren (barrenRead env st size)]
  refine .inr ⟨_,⟨_,shows,rfl⟩,?_⟩
  by_cases zero : le32 table (4 * i) = 0
  · rw [if_pos zero,if_pos zero]
    exact ⟨w,rfl,held⟩
  · rw [if_neg zero,if_neg zero]
    exact ⟨w,rfl,held,same⟩

theorem doubleEnds {i j : Nat} (first : i < st.blockSize / 4) (second : j < st.blockSize / 4) (t : Nat) :
    Carries st node image t .double (entryOf env st image .single i (leafOf st image j)) fun w =>
      (switchTable env st (readClient env st size) .double .single i w).bind fun _ w =>
        skipDibp st (readClient env st size) j w :=
  entryEnds (by decide) first (fun _ => skipDibpGone j) (leafEnds second t)

variable (env size) in
/-- findBlock goes as the ledger allows. -/
theorem findBlockEnds (held : Held st node image w L) (index : Nat) : Ends st node image w.traversed
    (Finds env st node image (place st.blockSize index) L) (findBlock env st node (readClient env st size) index w) := by
  unfold findBlock place
  dsimp only
  by_cases direct : index < 12
  · rw [if_pos direct,if_pos direct]
    simp only [directBlock,loadBlockBarren (barrenRead env st size)]
    refine .inr ⟨_,rfl,?_⟩
    by_cases zero : node.direct index = 0
    · rw [if_pos zero,if_pos zero]
      exact ⟨w,rfl,held⟩
    · rw [if_neg zero,if_neg zero]
      exact ⟨w,rfl,held,rfl⟩
  rw [if_neg direct,if_neg direct]
  by_cases none : st.blockSize / 4 = 0
  · rw [if_pos none]
    exact .inl ⟨_,rfl⟩
  rw [if_neg none]
  have inside (n : Nat) : n % (st.blockSize / 4) < st.blockSize / 4 := Nat.mod_lt _ (Nat.pos_of_ne_zero none)
  split
  · exact topEnds held (leafEnds (inside _) _)
  split
  · exact topEnds held (entryEnds (by decide) (inside _) (fun _ => switchGone _ _) (doubleEnds (inside _) (inside _) _))
  · exact topEnds held (doubleEnds (inside _) (inside _) _)

theorem backHeld (held : Held st node image w L) (l : Level) {N : Ledger} (copy : N.copy = L.copy) {world : World}
    (disk : world.disk = image) (calls : world.calls = N.calls) (covers : N.Covers env st l) :
    (writeTable env st world (home node w l) (w.table l)).disk = image ∧
      (writeTable env st world (home node w l) (w.table l)).calls = (N.back l).calls ∧ (N.back l).copy = L.copy := by
  have copies := held.copies l
  rw [← copy] at copies
  unfold Ledger.back
  cases cached : N.copy l with
  | none =>
    obtain ⟨missing,_⟩ := copiedNone (cached ▸ copies)
    rw [missing]
    exact ⟨disk,calls,copy⟩
  | some c =>
    obtain ⟨table,here,place,agree,_⟩ := copiedHome (cached ▸ copies)
    rw [here,place]
    refine ⟨(writeCovered (disk ▸ agree) ?_).trans disk,congrArg (· + 1) calls,copy⟩
    rw [calls]
    exact covers c cached

theorem returnsKeep (held : Held st node image w L) (returns : L.Returns env st) :
    (traverseExit env st node w).disk = image := by
  obtain ⟨triple,double,single⟩ := returns
  have top : node.top .triple = home node w .triple := (if_pos held.lone).symm
  unfold traverseExit
  rw [top]
  obtain ⟨disk,calls,copy⟩ := backHeld held .triple rfl held.disk held.calls triple
  obtain ⟨disk,calls,copy⟩ := backHeld held .double copy disk calls double
  exact (backHeld held .single copy disk calls single).1

section
variable {world : World} {offset : Nat}

theorem stepTrail (clean : Clean env st node image world offset size) (held : Held st node image w L)
    (trail : Trail env st node image world offset size w.traversed L) (more : w.traversed < size) {after : Walk Mem}
    (step : traverseStep env st node (readClient env st size) offset w = .next () after) :
    ∃ M, Held st node image after M ∧ Trail env st node image world offset size after.traversed M := by
  obtain ⟨_,block,found,run,rfl⟩ := stepNext step
  have fine := clean w.traversed L trail
  rw [if_pos more] at fine
  obtain ⟨f,fault⟩ | ⟨e,finds,shown⟩ := findBlockEnds env size held (blockIndex st offset w)
  · rw [run] at fault
    cases fault
  cases e with
  | found b M =>
    obtain ⟨next,same,kept,traversed⟩ := shown
    cases run.symm.trans same
    have count : ((readClient env st size).visit found.world found.data block found.traversed (blockJank st offset w)).1 =
        advance env st offset size M.calls block w.traversed := by
      rw [traversed,← kept.calls]
      rfl
    refine ⟨{ M with calls := M.calls + 1 },⟨kept.disk,congrArg (· + 1) kept.calls,kept.allocs,kept.copies,kept.lone⟩,?_⟩
    dsimp only
    rw [count,traversed]
    exact .step trail more finds
  | left M =>
    obtain ⟨next,same,_⟩ := shown
    cases run.symm.trans same
  | spill => exact (fine _ finds).elim
  | spoiled => exact (fine _ finds).elim

theorem loopKeeps {fuel : Nat} {buffer : Mem} {e : Walk Mem} (clean : Clean env st node world.disk world offset size)
    (ended : traverseLoop env st node (readClient env st size) offset size fuel (.start world buffer) = .exit e) :
    (traverseExit env st node e).disk = world.disk := by
  let P (w : Walk Mem) : Prop := ∃ L, Held st node world.disk w L ∧ Trail env st node world.disk world offset size w.traversed L
  have start : P (.start world buffer) := ⟨_,⟨rfl,rfl,rfl,fun _ => .none,rfl⟩,.start⟩
  obtain ⟨last,⟨L,held,trail⟩,⟨past,rfl⟩ | ⟨more,exit⟩⟩ := traverseLoopRule
    (fun w after ⟨L,held,trail⟩ more step => stepTrail clean held trail more step) start ended
  · have returns := clean e.traversed L trail
    rw [if_neg (Nat.not_lt_of_le past)] at returns
    exact returnsKeep held returns
  · have fine := clean last.traversed L trail
    rw [if_pos more] at fine
    obtain ⟨f,fault⟩ | ⟨e,finds,shown⟩ := findBlockEnds env size held (blockIndex st offset last)
    · rw [exit] at fault
      cases fault
    cases e with
    | found b M =>
      obtain ⟨next,same,_⟩ := shown
      cases exit.symm.trans same
    | left M =>
      obtain ⟨next,same,kept⟩ := shown
      cases exit.symm.trans same
      exact returnsKeep kept (fine _ finds)
    | spill => exact (fine _ finds).elim
    | spoiled => exact (fine _ finds).elim

theorem readKeepsClean {fuel : Nat} {buffer : Option Mem} {after : World} {n : Nat} {out : Option Mem}
    (clean : ∀ node, st.node = some node → Clean env st node world.disk world offset size)
    (run : ext2ReadInodeData env fuel st buffer offset size world = .ret (n,after,out)) : after.disk = world.disk := by
  cases buffer with
  | none =>
    cases run
    rfl
  | some buffer =>
    by_cases empty : size = 0
    · simp only [ext2ReadInodeData,if_pos empty] at run
      cases run
      rfl
    cases held : st.node with
    | none => simp [ext2ReadInodeData,ext2TraverseBlocks,empty,held,Outcome.map] at run
    | some node =>
      obtain ⟨e,ended,_,rfl,_⟩ := readEnds held empty run
      exact loopKeeps (clean node held) ended

end

/-! With full transfers the ledger tells no more than where the tables are from. -/

def homesOf (L : Ledger) : Homes := fun l => (L.copy l).map Copy.block

def Whole (st : BasicState) (L : Ledger) : Prop := ∀ l c, L.copy l = some c → c.read = st.blockSize

def End.Whole (st : BasicState) : End → Prop
  | .found _ L => Ext2Ledger.Whole st L
  | .left L => Ext2Ledger.Whole st L
  | .spill => True
  | .spoiled => False

def End.Resolved (result : Result → Prop) : End → Prop
  | .found b L => result (.found b (homesOf L))
  | .left _ => True
  | .spill => result .spill
  | .spoiled => False

def Follows (st : BasicState) (allowed : End → Prop) (result : Result → Prop) : Prop :=
  ∀ e, allowed e → e.Whole st ∧ e.Resolved result

section
variable (full : env.Full)
include full

theorem movesFull (k block : Nat) : moves env st k block = st.blockSize := Nat.min_eq_left (full _ _ _)

omit full in
theorem wholeCovers (whole : Whole st L) (l : Level) : L.Covers env st l := by
  intro c cached
  rw [whole l c cached]
  exact Nat.min_le_left _ _

omit full in
theorem wholeBack (whole : Whole st L) (l : Level) : Whole st (L.back l) := by
  unfold Ledger.back
  split <;> exact whole

omit full in
theorem wholeReturns (whole : Whole st L) : L.Returns env st :=
  ⟨wholeCovers whole _,wholeCovers (wholeBack whole _) _,wholeCovers (wholeBack (wholeBack whole _) _) _⟩

theorem wholeLoad (whole : ∀ l c, L.copy l = some c → c.read = st.blockSize) (l : Level) (block : Nat) (named : Bool) :
    Whole st (L.load env st l block named) ∧ homesOf (L.load env st l block named) =
      Function.update (homesOf L) l (some block) := by
  constructor
  · intro m c cached
    by_cases here : m = l
    · subst here
      simp only [Ledger.load,Function.update_self] at cached
      cases cached
      exact movesFull full _ _
    · simp only [Ledger.load,Function.update_of_ne here] at cached
      exact whole m c cached
  · funext m
    by_cases here : m = l
    · subst here
      simp [homesOf,Ledger.load]
    · simp [homesOf,Ledger.load,here]

omit full in
theorem showsWhole {c : Copy} (read : c.read = st.blockSize) {i pointer : Nat} (shows : Shows st image c i pointer) :
    Exactly st image c.block i pointer := by
  obtain ⟨inside,table,agree,rfl⟩ := shows
  refine ⟨inside,le32Congr fun j low => ?_⟩
  have same := agree (4 * i + j) (by omega)
  simpa [Nat.add_assoc] using same

def Onward (st : BasicState) (l : Level) (next : Next) (result : Nat → Homes → Result → Prop) : Prop :=
  ∀ c L, Whole st L → L.copy l = some c → Follows st (next c L) (result c.block (homesOf L))

theorem fillFollows {l : Level} {next : Next} {result : Nat → Homes → Result → Prop} (onward : Onward st l next result)
    (whole : Whole st L) (block : Nat) (named : Bool) (calls allocs : Nat) :
    Follows st (fill env st l block named next ⟨calls,allocs,L.copy⟩)
      (result block (Function.update (homesOf L) l (some block))) := by
  intro e filled
  obtain ⟨loaded,homes⟩ := wholeLoad (L := ⟨calls,allocs,L.copy⟩) full whole l block named
  have next := onward _ _ loaded (Function.update_self ..) e filled
  rw [homes] at next
  exact next

omit full in
theorem followsMono {allowed : End → Prop} {result weaker : Result → Prop} (follows : Follows st allowed result)
    (weak : ∀ r, result r → weaker r) : Follows st allowed weaker := by
  intro e here
  obtain ⟨whole,resolved⟩ := follows e here
  refine ⟨whole,?_⟩
  cases e with
  | found b M => exact weak _ resolved
  | left M => trivial
  | spill => exact weak _ resolved
  | spoiled => exact resolved

theorem topFollows {l : Level} {next : Next} {result : Nat → Homes → Result → Prop} (onward : Onward st l next result)
    (whole : Whole st L) : Follows st (topOf env st node l next L)
      (IndexTree.topOf (homesOf L l) (node.top l) fun t => result t (Function.update (homesOf L) l (some t))) := by
  intro e here
  unfold topOf at here
  cases cached : L.copy l with
  | some c =>
    have kept : homesOf L l = some c.block := by rw [homesOf,cached]; rfl
    have top : IndexTree.topOf (homesOf L l) (node.top l) (fun t => result t (Function.update (homesOf L) l (some t))) =
        result c.block (homesOf L) := by
      rw [kept]
      change result c.block (Function.update (homesOf L) l (some c.block)) = _
      rw [← kept,Function.update_eq_self]
    rw [cached] at here
    rw [top]
    exact onward c L whole cached e here
  | none =>
    have missing : homesOf L l = none := by rw [homesOf,cached]; rfl
    rw [cached] at here
    rw [missing]
    dsimp only at here
    split at here
    · subst here
      exact ⟨whole,trivial⟩
    split at here
    · rename_i zero
      subst here
      exact ⟨trivial,.inl ⟨zero,rfl⟩⟩
    · rename_i nonzero
      exact followsMono (fillFollows full onward whole _ _ _ _) (fun r led => .inr ⟨nonzero,led⟩) e here

theorem entryFollows {upper l : Level} {next : Next} {result : Nat → Homes → Result → Prop} (onward : Onward st l next result)
    (i : Nat) : Onward st upper (entryOf env st image l i next)
      fun t h => IndexTree.entryOf (Exactly st image) t i fun u => result u (Function.update h l (some u)) := by
  rintro c L whole cached e ⟨pointer,shows,here⟩
  have read := showsWhole (whole upper c cached) shows
  by_cases zero : pointer = 0
  · rw [if_pos zero] at here
    subst here
    exact ⟨whole,trivial⟩
  rw [if_neg zero] at here
  have filled (calls allocs : Nat) := followsMono (fillFollows full onward whole pointer true calls allocs)
    (fun r led => (⟨pointer,read,.inr ⟨zero,led⟩⟩ : IndexTree.entryOf (Exactly st image) c.block i
      (fun u => result u (Function.update (homesOf L) l (some u))) r))
  unfold replaced at here
  cases old : L.copy l with
  | none =>
    rw [old] at here
    exact filled _ _ e here.2
  | some d =>
    rw [old] at here
    dsimp only at here
    split at here
    · exact filled _ _ e here
    split at here
    · rename_i same
      have kept : homesOf L l = some pointer := by rw [homesOf,old,← same]; rfl
      refine followsMono (onward d L whole old) (fun r led => ⟨pointer,read,.inr ⟨zero,?_⟩⟩) e here
      dsimp only
      rw [← kept,Function.update_eq_self,← same]
      exact led
    · obtain ⟨uncovered,_⟩ | ⟨_,here⟩ := here
      · exact absurd (wholeCovers whole l) uncovered
      · exact filled _ _ e here

omit full in
theorem leafFollows (i : Nat) : Onward st .single (leafOf st image i)
    fun t h => IndexTree.entryOf (Exactly st image) t i fun b r => r = .found b h := by
  rintro c L whole cached e ⟨pointer,shows,rfl⟩
  have read := showsWhole (whole .single c cached) shows
  by_cases zero : pointer = 0
  · rw [if_pos zero]
    exact ⟨whole,trivial⟩
  · rw [if_neg zero]
    exact ⟨whole,pointer,read,.inr ⟨zero,rfl⟩⟩

theorem findsFollows (whole : Whole st L) (q : Path) : Follows st (Finds env st node image q L)
    (Resolves (roots node) (Exactly st image) (homesOf L) q) := by
  cases q with
  | direct i =>
    rintro e rfl
    by_cases zero : node.direct i = 0
    · rw [if_pos zero]
      exact ⟨whole,trivial⟩
    · rw [if_neg zero]
      exact ⟨whole,.inr ⟨zero,rfl⟩⟩
  | single i => exact topFollows full (leafFollows i) whole
  | double i j => exact topFollows full (entryFollows full (leafFollows j) i) whole
  | triple i j k => exact topFollows full (entryFollows full (entryFollows full (leafFollows k) j) i) whole

theorem trailFollows {world : World} {offset t : Nat} (trail : Trail env st node image world offset size t L) :
    Whole st L ∧ Ext2ReadOnly.Trail st node (Exactly st image) (fun _ => copySize st offset size) offset size t (homesOf L) := by
  induction trail with
  | start => exact ⟨nofun,.start⟩
  | @step t block L M _ more finds ih =>
    obtain ⟨whole,resolved⟩ := findsFollows full ih.1 _ _ finds
    have moved : advance env st offset size M.calls block t = copySize st offset size t := Nat.min_eq_left (full _ _ _)
    rw [moved]
    exact ⟨whole,.step ih.2 more resolved⟩

theorem cleanFull {world : World} {offset : Nat} (free : SpillFree st node (Exactly st image)
    (fun _ => copySize st offset size) offset size) : Clean env st node image world offset size := by
  intro t L trail
  obtain ⟨whole,former⟩ := trailFollows full trail
  split
  · rename_i more
    intro e finds
    obtain ⟨kept,resolved⟩ := findsFollows full whole _ e finds
    cases e with
    | found b M => trivial
    | left M => exact wholeReturns kept
    | spill => exact free t _ former more resolved
    | spoiled => exact kept
  · exact wholeReturns whole

end

end

/-- A read leaves the partition as it was, whatever its transfers move, if it meets no missing
top table with a zero pointer and no table is written back with more bytes than were read of it;
and where every transfer is a full one, only if. -/
theorem readUnchangedIff (st : BasicState) (offset size : Nat) (world : World) :
    (∀ env : Env, (∀ node, st.node = some node → Clean env st node world.disk world offset size) →
      ∀ fuel buffer n after out, ext2ReadInodeData env fuel st buffer offset size world = .ret (n,after,out) →
        after.disk = world.disk) ∧
    (∀ (grant : Nat → Nat → Nat → Nat) (node : Ext2Inode) (buffer : Mem), (∀ k pos n, n ≤ grant k pos n) →
      4 ≤ st.blockSize → st.blockSize ≤ 2^32 → st.node = some node →
      ((∀ fresh fuel n after out,
          ext2ReadInodeData ⟨grant,fresh⟩ fuel st (some buffer) offset size world = .ret (n,after,out) →
          after.disk = world.disk) ↔ ∀ fresh, Clean ⟨grant,fresh⟩ st node world.disk world offset size)) := by
  constructor
  · intro env clean fuel buffer n after out run
    exact readKeepsClean clean run
  · intro grant node buffer full sized large held
    constructor
    · intro unchanged fresh
      have whole : Env.Full ⟨grant,fresh⟩ := full
      refine cleanFull whole ?_
      by_contra spills
      have filled : Env.Full ⟨grant,fun _ => some fun _ => world.disk 0 + 1⟩ := full
      obtain ⟨fuel,n,after,out,run,first⟩ := spilledRead filled (fun _ => rfl) sized large held buffer spills
      rw [unchanged _ fuel n after out run] at first
      simp at first
    · intro clean fresh fuel n after out run
      refine readKeepsClean (fun other here => ?_) run
      cases held.symm.trans here
      exact clean fresh

def halfNode : Ext2Inode := ⟨0,0,fun _ => 1,1,1,1⟩
def halfState : BasicState := ⟨some halfNode,0,1024,12⟩
def halfDisk : Mem := fun a => if a = 1024 then 5 else 0
def halfEnv : Env := ⟨fun k _ n => if k = 0 then 512 else if k = 1 then n else 100,fun _ => some fun _ => 7⟩
def halfLedger : Ledger := ⟨2,1,Function.update (fun _ => none) .single (some ⟨1,512,false⟩)⟩

theorem spillFreeTops {node : Ext2Inode} (tops : ∀ l, node.top l ≠ 0) (st : BasicState)
    (reads : Nat → Nat → Nat → Prop) (advance : Nat → Nat → Nat) (offset size : Nat) :
    SpillFree st node reads advance offset size := by
  intro t h trail more spill
  obtain ⟨l,_,_,zero⟩ := resolvesSpill spill
  exact tops l zero

theorem halfFinds {e : End} (finds : Finds halfEnv halfState halfNode halfDisk (.single 0) ⟨0,0,fun _ => none⟩ e) :
    e = .found 5 { halfLedger with calls := 1 } := by
  obtain ⟨pointer,⟨_,table,agree,rfl⟩,rfl⟩ := finds
  have entry : le32 table (4 * 0) = 5 := by
    refine (le32Congr (b := halfDisk) (q := 1024) fun j low => ?_).trans (by decide)
    have same := agree j (by change j < 512; omega)
    rw [Nat.zero_add] at same
    rw [Nat.mul_zero,Nat.zero_add]
    exact same
  rw [entry]
  rfl

theorem halfClean : Clean halfEnv halfState halfNode halfDisk ⟨halfDisk,0,0,0⟩ 12288 1 := by
  intro t L trail
  have visited : (t = 0 ∧ L = ⟨0,0,fun _ => none⟩) ∨ (t = 1 ∧ L = halfLedger) := by
    induction trail with
    | start => exact .inl ⟨rfl,rfl⟩
    | step _ more finds ih =>
      obtain ⟨rfl,rfl⟩ | ⟨rfl,_⟩ := ih
      · cases halfFinds finds
        exact .inr ⟨by decide,rfl⟩
      · omega
  obtain ⟨rfl,rfl⟩ | ⟨rfl,rfl⟩ := visited
  · intro e finds
    rw [halfFinds finds]
    trivial
  · refine ⟨nofun,nofun,fun c cached => ?_⟩
    cases cached
    decide

theorem readUnchangedIffHalf :
    (∃ after out, ext2ReadInodeData halfEnv 2 halfState (some zeros) 12288 1 ⟨halfDisk,0,0,0⟩ = .ret (1,after,out) ∧
      after.disk = halfDisk) ∧
    ∀ fresh fuel n after out, ext2ReadInodeData ⟨fun _ _ n => n,fresh⟩ fuel halfState (some zeros) 12288 1
      ⟨halfDisk,0,0,0⟩ = .ret (n,after,out) → after.disk = halfDisk := by
  obtain ⟨enough,only⟩ := readUnchangedIff halfState 12288 1 ⟨halfDisk,0,0,0⟩
  constructor
  · have clean : ∀ node, halfState.node = some node → Clean halfEnv halfState node halfDisk ⟨halfDisk,0,0,0⟩ 12288 1 := by
      rintro node held
      cases held
      exact halfClean
    obtain ⟨after,out,run⟩ : ∃ after out,
        ext2ReadInodeData halfEnv 2 halfState (some zeros) 12288 1 ⟨halfDisk,0,0,0⟩ = .ret (1,after,out) := ⟨_,_,rfl⟩
    exact ⟨after,out,run,enough halfEnv clean 2 (some zeros) 1 after out run⟩
  · refine (only (fun _ _ n => n) halfNode zeros (fun _ _ _ => le_rfl) (by decide) (by decide) rfl).mpr fun fresh => ?_
    have full : Env.Full ⟨fun _ _ n => n,fresh⟩ := fun _ _ _ => le_rfl
    exact cleanFull full (spillFreeTops (fun l => by cases l <;> decide) _ _ _ _ _)

end Kdrivers.Ext2Ledger
