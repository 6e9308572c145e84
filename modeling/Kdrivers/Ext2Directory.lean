import Kdrivers.CString
import Kdrivers.Ext2Super
import Kdrivers.Ext2Transfer

/-! Directories (util.c, directory.c, super.c): the listing of the records of every block,
the search for a name with it, and the stat and locate functions over the search. -/
namespace Kdrivers.Ext2Directory
open Bytes CString Vfs IndexTree Ext2State Ext2Traverse Ext2Transfer Ext2Super

structure Ext2DirEnt where
  inode : Nat
  totalSize : Nat
  lowerNameLen : Nat
  name : Mem

def Ext2DirEnt.ofBytes (m : Mem) : Ext2DirEnt := ⟨le32 m 0,le16 m 4,(m 6).toNat,view m 8⟩

section Listing
variable {σ : Type} (env : Env) (dir : BasicState) (callback : Ext2DirEnt → σ → Int × σ)

/- The records of a block from i on, whether the callback stopped the listing. A turn moves
i by at least one, so that the block's size bounds them. -/
def scanBlock (block : Mem) : Nat → Nat → σ → Bool × σ
  | 0,_,arg => (false,arg)
  | turns+1,i,arg =>
    if dir.blockSize ≤ i then (false,arg)
    else
      let ent := Ext2DirEnt.ofBytes (view block i)
      if ent.totalSize = 0 then (false,arg)
      else
        let (r,arg) := callback ent arg
        if r = 0 then (true,arg) else scanBlock block turns (i + ent.totalSize) arg

def listLoop (turns : Nat) : Nat → Option Mem → Nat → σ → World → Outcome (σ × World)
  | 0,_,_,_,_ => .running
  | fuel+1,block,offset,arg,world => do
    let (delta,world,block) ← ext2ReadInodeData env turns dir block offset dir.blockSize world
    if delta = 0 then .ret (arg,world)
    else match block with
      | none => .fault .nullPointer
      | some data =>
        let (stopped,arg) := scanBlock dir callback data dir.blockSize 0 arg
        if stopped then .ret (arg,world) else listLoop turns fuel (some data) (add64 offset delta) arg world

def ext2ListDirectory (fuel : Nat) (arg : σ) (world : World) : Outcome (σ × World) :=
  let (block,world) := alloc env world
  listLoop env dir callback fuel fuel block 0 arg world

end Listing

def callbackGetInodeInDir (target : Mem) (ent : Ext2DirEnt) (inodeNumber : Nat) : Int × Nat :=
  if strncmp ent.lowerNameLen ent.name target ≠ 0 then (1,inodeNumber) else (0,ent.inode)

def ext2GetInodeInDir (env : Env) (fuel : Nat) (dir : BasicState) (filename : Mem) (world : World) :
    Outcome (Nat × World) :=
  ext2ListDirectory env dir (callbackGetInodeInDir filename) fuel 0 world

structure Ext2LocateArgs where
  node : Option Ext2Inode
  super : SuperState
  inode : Nat

section Lookup
variable (env : Env) (fuel : Nat)

def statInode (super : SuperState) (inode : Nat) (world : World) : Outcome (Int × Option UInt16 × World) := do
  let (node,world) ← ext2ReadInode env super inode world
  match node with
  | none => .ret (-1,none,world)
  | some node => .ret (0,some node.typePerms,world)

def statIn (dir : BasicState) (super : SuperState) (filename : Mem) (world : World) :
    Outcome (Int × Option UInt16 × World) := do
  let (inode,world) ← ext2GetInodeInDir env fuel dir filename world
  statInode env super inode world

def locateInode (super : SuperState) (inode : Nat) (world : World) : Outcome (Option Ext2LocateArgs × World) := do
  let (node,world) ← ext2ReadInode env super inode world
  .ret (some ⟨node,super,inode % 2^32⟩,world)

def locateIn (dir : BasicState) (super : SuperState) (filename : Mem) (world : World) :
    Outcome (Option Ext2LocateArgs × World) := match alloc env world with
  | (none,world) => .ret (none,world)
  | (some _,world) => do
    let (inode,world) ← ext2GetInodeInDir env fuel dir filename world
    locateInode env super inode world

def statExt2Super (state : SuperState) := statIn env fuel state.basic state
def statExt2Directory (state : NodeState) := statIn env fuel state.basic state.super
def locateExt2Super (state : SuperState) := locateIn env fuel state.basic state
def locateExt2Directory (state : NodeState) := locateIn env fuel state.basic state.super

end Lookup

structure Record where
  inode : Nat
  totalSize : Nat
  name : Name
  roomy : 8 + name.bytes.length ≤ totalSize

structure Record.Held (r : Record) (ent : Ext2DirEnt) : Prop where
  inode : ent.inode = r.inode
  totalSize : ent.totalSize = r.totalSize
  length : ent.lowerNameLen = r.name.bytes.length
  name : Starts ent.name r.name.bytes

inductive Tiled (bs : Nat) (block : Mem) : Nat → List Record → Prop where
  | done : Tiled bs block bs []
  | record {pos : Nat} {r : Record} {rest : List Record} (held : r.Held (.ofBytes (view block pos)))
      (tail : Tiled bs block (pos + r.totalSize) rest) : Tiled bs block pos (r::rest)

inductive Holding (dir : BasicState) (node : Ext2Inode) (image : Mem) : Nat → List (List Record) → Prop where
  | done {k : Nat} (missing : resolved dir node image k = none) : Holding dir node image k []
  | block {k block : Nat} {records : List Record} {rest : List (List Record)}
      (here : resolved dir node image k = some block)
      (tiled : Tiled dir.blockSize (view image (block * dir.blockSize)) 0 records)
      (tail : Holding dir node image (k + 1) rest) : Holding dir node image k (records::rest)

structure Listed (env : Env) (dir : BasicState) (image : Mem) (blocks : List (List Record)) : Prop where
  full : env.Full
  allocates : env.Allocates
  sized : 4 ≤ dir.blockSize
  short : dir.blockSize < 2^64
  fits : (blocks.length + 1) * dir.blockSize ≤ 2^64
  node : ∃ node, dir.node = some node ∧ Holding dir node image 0 blocks ∧
    ∀ x, DataOf dir node image x → (x + 1) * dir.blockSize ≤ 2^64

def firstPrefix (filename : Name) (records : List Record) : Option Record :=
  records.find? fun r => r.name.bytes.isPrefixOf filename.bytes

def outcome (filename : Name) (records : List Record) : Nat := match firstPrefix filename records with
  | none => 0
  | some r => r.inode

def entriesFrom (bs : Nat) (block : Mem) : Nat → Nat → List Ext2DirEnt
  | 0,_ => []
  | turns+1,i =>
    let ent := Ext2DirEnt.ofBytes (view block i)
    if bs ≤ i ∨ ent.totalSize = 0 then [] else ent :: entriesFrom bs block turns (i + ent.totalSize)

def entries (bs : Nat) (block : Mem) : List Ext2DirEnt := entriesFrom bs block bs 0

def invoke {σ : Type} (callback : Ext2DirEnt → σ → Int × σ) : List Ext2DirEnt → σ → Bool × σ
  | [],arg => (false,arg)
  | ent::rest,arg =>
    let (r,arg) := callback ent arg
    if r = 0 then (true,arg) else invoke callback rest arg

theorem scanInvokes {σ : Type} (dir : BasicState) (callback : Ext2DirEnt → σ → Int × σ) (block : Mem) (turns i : Nat)
    (arg : σ) : scanBlock dir callback block turns i arg = invoke callback (entriesFrom dir.blockSize block turns i) arg := by
  induction turns generalizing i arg with
  | zero => rfl
  | succ turns ih =>
    rw [scanBlock,entriesFrom]
    by_cases past : dir.blockSize ≤ i
    · rw [if_pos past,if_pos (.inl past)]
      rfl
    · by_cases zero : (Ext2DirEnt.ofBytes (view block i)).totalSize = 0
      · simp only [if_neg past,zero,or_true,if_true]
        rfl
      · simp only [past,zero,or_self,if_false,invoke,ih]

theorem invokeAppend {σ : Type} (callback : Ext2DirEnt → σ → Int × σ) (ents rest : List Ext2DirEnt) (arg : σ) :
    invoke callback (ents ++ rest) arg =
      if (invoke callback ents arg).1 then invoke callback ents arg else invoke callback rest (invoke callback ents arg).2 := by
  induction ents generalizing arg with
  | nil => rfl
  | cons ent ents ih =>
    simp only [List.cons_append,invoke]
    by_cases stops : (callback ent arg).1 = 0
    · simp only [stops,if_true]
    · simp only [stops,if_false,ih]

structure Entry where
  inode : Nat
  totalSize : Nat
  name : List UInt8
  roomy : 8 + name.length ≤ totalSize

structure Entry.Held (e : Entry) (ent : Ext2DirEnt) : Prop where
  inode : ent.inode = e.inode
  totalSize : ent.totalSize = e.totalSize
  length : ent.lowerNameLen = e.name.length
  name : Starts ent.name e.name

inductive Laid (bs : Nat) (block : Mem) : Nat → List Entry → Prop where
  | done : Laid bs block bs []
  | entry {pos : Nat} {e : Entry} {rest : List Entry} (held : e.Held (.ofBytes (view block pos)))
      (tail : Laid bs block (pos + e.totalSize) rest) : Laid bs block pos (e::rest)

theorem laidEnd {bs : Nat} {block : Mem} {pos : Nat} {list : List Entry} (laid : Laid bs block pos list) : pos ≤ bs := by
  induction laid with
  | done => exact Nat.le_refl _
  | entry _ _ ih => omega

theorem laidEntries {bs : Nat} {block : Mem} {pos : Nat} {list : List Entry} (laid : Laid bs block pos list) {turns : Nat}
    (enough : bs ≤ pos + turns) : List.Forall₂ Entry.Held list (entriesFrom bs block turns pos) := by
  induction laid generalizing turns with
  | done =>
    cases turns with
    | zero => exact .nil
    | succ turns =>
      rw [entriesFrom,if_pos (.inl (Nat.le_refl _))]
      exact .nil
  | @entry pos e rest held tail ih =>
    have last := laidEnd tail
    have roomy := e.roomy
    have size := held.totalSize
    cases turns with
    | zero => omega
    | succ turns =>
      rw [entriesFrom,if_neg (by omega),size]
      exact .cons held (ih (by omega))

def Record.entry (r : Record) : Entry := ⟨r.inode,r.totalSize,r.name.bytes,r.roomy⟩

theorem tiledLaid {bs : Nat} {block : Mem} {pos : Nat} {records : List Record} (tiled : Tiled bs block pos records) :
    Laid bs block pos (records.map Record.entry) := by
  induction tiled with
  | done => exact .done
  | record held _ ih => exact .entry ⟨held.inode,held.totalSize,held.length,held.name⟩ ih

theorem tiledEnd {bs : Nat} {block : Mem} {pos : Nat} {records : List Record} (tiled : Tiled bs block pos records) :
    pos ≤ bs := laidEnd (tiledLaid tiled)

theorem callbackPrefix {filename : Name} {r : Record} {ent : Ext2DirEnt} (held : r.entry.Held ent) (arg : Nat) :
    callbackGetInodeInDir (text filename.bytes) ent arg =
      if r.name.bytes.isPrefixOf filename.bytes then (0,r.inode) else (1,arg) := by
  have compare : strncmp r.name.bytes.length ent.name (text filename.bytes) = 0 ↔ r.name.bytes <+: filename.bytes :=
    strncmpPrefix held.name r.name.plain
  have length : ent.lowerNameLen = r.name.bytes.length := held.length
  have inode : ent.inode = r.inode := held.inode
  rw [callbackGetInodeInDir,length,inode]
  by_cases starts : r.name.bytes <+: filename.bytes
  · rw [if_neg (not_not.mpr (compare.mpr starts)),if_pos (List.isPrefixOf_iff_prefix.mpr starts)]
  · rw [if_pos fun same => starts (compare.mp same),if_neg fun same => starts (List.isPrefixOf_iff_prefix.mp same)]

theorem invokeFinds (filename : Name) {records : List Record} {ents : List Ext2DirEnt}
    (held : List.Forall₂ Entry.Held (records.map Record.entry) ents) :
    invoke (callbackGetInodeInDir (text filename.bytes)) ents 0 =
      ((firstPrefix filename records).isSome,outcome filename records) := by
  induction records generalizing ents with
  | nil =>
    cases held
    rfl
  | cons r rest ih =>
    obtain _ | ⟨first,others⟩ := held
    rw [invoke,callbackPrefix first]
    by_cases starts : r.name.bytes.isPrefixOf filename.bytes = true
    · simp [outcome,firstPrefix,starts]
    · rw [if_neg starts]
      simp [outcome,firstPrefix,starts,ih others]

theorem scanFinds {dir : BasicState} {block : Mem} {pos : Nat} {records : List Record}
    (tiled : Tiled dir.blockSize block pos records) (filename : Name) {turns : Nat} (enough : dir.blockSize ≤ pos + turns) :
    scanBlock dir (callbackGetInodeInDir (text filename.bytes)) block turns pos 0 =
      ((firstPrefix filename records).isSome,outcome filename records) := by
  rw [scanInvokes]
  exact invokeFinds filename (laidEntries (tiledLaid tiled) enough)

theorem heldCongr {r : Record} {a b : Mem} (same : ∀ i < r.totalSize, b i = a i) (held : r.Held (.ofBytes a)) :
    r.Held (.ofBytes b) := by
  have roomy := r.roomy
  have prefix_ (pos n : Nat) (inside : pos + n ≤ 8) : Agree n b pos a pos := fun i low => same (pos + i) (by omega)
  refine ⟨(le32Congr (prefix_ 0 4 (by omega))).trans held.inode,(le16Congr (prefix_ 4 2 (by omega))).trans held.totalSize,
    ?_,fun i inside => ?_⟩
  · rw [← held.length]
    exact congrArg UInt8.toNat (same 6 (by omega))
  · rw [← held.name i inside]
    exact same (8 + i) (by omega)

theorem tiledCongr {bs pos : Nat} {a b : Mem} {records : List Record} (same : ∀ i < bs, b i = a i)
    (tiled : Tiled bs a pos records) : Tiled bs b pos records := by
  induction tiled with
  | done => exact .done
  | record held tail ih =>
    have last := tiledEnd tail
    exact .record (heldCongr (fun i low => same _ (by omega)) held) ih

theorem outcomeAppend (filename : Name) (records rest : List Record) : outcome filename (records ++ rest) =
    if (firstPrefix filename records).isSome then outcome filename records else outcome filename rest := by
  unfold outcome firstPrefix
  rw [List.find?_append]
  cases records.find? fun r => r.name.bytes.isPrefixOf filename.bytes <;> rfl

section Reads
variable {env : Env} {dir : BasicState} {node : Ext2Inode} {image : Mem}

theorem readBlock (full : env.Full) (allocates : env.Allocates) (sized : 4 ≤ dir.blockSize) {world : World}
    (within : ∀ x, DataOf dir node world.disk x → (x + 1) * dir.blockSize ≤ 2^64) (held : dir.node = some node)
    {k : Nat} (fits : (k + 1) * dir.blockSize ≤ 2^64) (short : dir.blockSize < 2^64) (buffer : Mem) :
    ∃ fuel n after r, (∀ j, ext2ReadInodeData env (fuel + j) dir (some buffer) (k * dir.blockSize) dir.blockSize world =
      .ret (n,after,some r)) ∧ (resolved dir node world.disk k = none → n = 0) ∧
      ∀ block, resolved dir node world.disk k = some block → n = dir.blockSize ∧ after.disk = world.disk ∧
        ∀ i < dir.blockSize, r i = world.disk (block * dir.blockSize + i) := by
  have index (i : Nat) (low : i < dir.blockSize) : (k * dir.blockSize + i) / dir.blockSize = k ∧
      (k * dir.blockSize + i) % dir.blockSize = i := by
    rw [Nat.mul_comm,Nat.mul_add_div (by omega),Nat.div_eq_of_lt low,Nat.mul_add_mod,Nat.mod_eq_of_lt low]
    exact ⟨rfl,rfl⟩
  have end_ : k * dir.blockSize + dir.blockSize ≤ 2^64 := by rwa [← Nat.succ_mul]
  obtain ⟨fuel,n,after,r,run,bound,missing,copied,kept⟩ :=
    readTransfer full allocates sized within held end_ short (by omega) buffer
  refine ⟨fuel,n,after,r,run,fun none => ?_,fun block here => ?_⟩
  · by_contra some
    obtain ⟨a,found,_⟩ := copied.got 0 (Nat.pos_of_ne_zero some)
    rw [byteAt,(index 0 (by omega)).1,none] at found
    cases found
  · have whole : n = dir.blockSize := by
      by_contra less
      have absent := missing (by omega)
      rw [byteAt,(index n (by omega)).1,here] at absent
      cases absent
    refine ⟨whole,kept whole,fun i low => ?_⟩
    obtain ⟨a,found,byte⟩ := copied.got i (by omega)
    rw [byteAt,(index i low).1,(index i low).2,here] at found
    cases found
    exact byte

theorem listFinds (full : env.Full) (allocates : env.Allocates) (sized : 4 ≤ dir.blockSize) (short : dir.blockSize < 2^64)
    (held : dir.node = some node) (within : ∀ x, DataOf dir node image x → (x + 1) * dir.blockSize ≤ 2^64)
    (filename : Name) {k : Nat} {blocks : List (List Record)} (holding : Holding dir node image k blocks)
    (fits : (k + blocks.length + 1) * dir.blockSize ≤ 2^64) {world : World} (disk : world.disk = image) (data : Mem) :
    ∃ enough, ∀ turns ≥ enough, ∀ fuel ≥ enough, ∃ after,
      listLoop env dir (callbackGetInodeInDir (text filename.bytes)) turns fuel (some data) (k * dir.blockSize) 0 world =
        .ret (outcome filename blocks.flatten,after) := by
  induction holding generalizing world data with
  | @done k missing =>
    subst disk
    have here : (k + 1) * dir.blockSize ≤ 2^64 := (Nat.mul_le_mul_right _ (by omega)).trans fits
    obtain ⟨enough,n,after,r,run,zero,_⟩ := readBlock full allocates sized within held here short data
    have empty := zero missing
    refine ⟨enough + 1,fun turns many fuel more => ⟨after,?_⟩⟩
    obtain ⟨j,rfl⟩ := Nat.exists_eq_add_of_le (Nat.le_of_succ_le many)
    obtain ⟨l,rfl⟩ := Nat.exists_eq_add_of_le' (Nat.le_trans (Nat.le_add_left 1 enough) more)
    rw [listLoop,run j,Outcome.retBind]
    simp only [empty,if_true]
    rfl
  | @block k block records rest resolves tiled tail ih =>
    subst disk
    have here : (k + 1) * dir.blockSize ≤ 2^64 := (Nat.mul_le_mul_right _ (by omega)).trans fits
    obtain ⟨enough,n,after,r,run,_,whole⟩ := readBlock full allocates sized within held here short data
    obtain ⟨size,kept,bytes⟩ := whole block resolves
    have scan := scanFinds (tiledCongr bytes tiled) filename (show dir.blockSize ≤ 0 + dir.blockSize by omega)
    rw [List.length_cons,← Nat.add_assoc,Nat.add_right_comm k] at fits
    obtain ⟨later,ends⟩ := ih fits kept r
    refine ⟨max enough later + 1,fun turns many fuel more => ?_⟩
    obtain ⟨j,rfl⟩ := Nat.exists_eq_add_of_le (show enough ≤ turns by omega)
    obtain ⟨l,rfl⟩ := Nat.exists_eq_add_of_le' (show 1 ≤ fuel by omega)
    have next : add64 (k * dir.blockSize) dir.blockSize = (k + 1) * dir.blockSize := by
      have two : (k + 1 + 1) * dir.blockSize ≤ 2^64 := (Nat.mul_le_mul_right _ (by omega)).trans fits
      rw [Nat.succ_mul,Nat.succ_mul] at two
      rw [Nat.succ_mul]
      exact add64Eq (by omega)
    rw [listLoop,run j,Outcome.retBind]
    simp only [size,if_neg (show dir.blockSize ≠ 0 by omega),scan,List.flatten_cons,outcomeAppend]
    by_cases stops : (firstPrefix filename records).isSome = true
    · simp only [if_pos stops]
      exact ⟨_,rfl⟩
    · rw [Option.isSome_iff_ne_none,not_not] at stops
      have none : outcome filename records = 0 := by rw [outcome,stops]
      simp only [stops,Option.isSome_none,Bool.false_eq_true,if_false,none,next]
      exact ends (enough + j) (by omega) l (by omega)

end Reads

section Search
variable {env : Env} {dir : BasicState} {world : World} {blocks : List (List Record)}

theorem listedFinds (listed : Listed env dir world.disk blocks) (filename : Name) {now : World}
    (same : now.disk = world.disk) : ∃ enough, ∀ fuel ≥ enough, ∃ after,
      ext2GetInodeInDir env fuel dir (text filename.bytes) now = .ret (outcome filename blocks.flatten,after) := by
  obtain ⟨node,held,holding,within⟩ := listed.node
  obtain ⟨buffer,fresh⟩ := Option.isSome_iff_exists.mp (listed.allocates now.allocs)
  have fits := listed.fits
  obtain ⟨enough,ends⟩ := listFinds listed.full listed.allocates listed.sized listed.short held within filename holding
    (by rwa [Nat.zero_add]) ((allocDisk env now).trans same) buffer
  refine ⟨enough,fun fuel more => ?_⟩
  obtain ⟨after,run⟩ := ends fuel more fuel more
  rw [Nat.zero_mul] at run
  refine ⟨after,?_⟩
  rw [ext2GetInodeInDir,ext2ListDirectory,← run]
  simp only [alloc,fresh]

def Answer (filename : Name) (records : List Record) (inode : Nat) : Prop :=
  (inode ≠ 0 ∧ ∃ r ∈ records, r.name = filename ∧ r.inode = inode) ∨
    (inode = 0 ∧ ∀ r ∈ records, r.name = filename → r.inode = 0)

structure ResolvesTo (env : Env) (dir : BasicState) (super : SuperState) (filename : Name) (world : World) (inode : Nat) :
    Prop where
  finds : ∃ enough, ∀ fuel ≥ enough, ∃ after,
    ext2GetInodeInDir env fuel dir (text filename.bytes) world = .ret (inode,after)
  stats : ∃ enough, ∀ fuel ≥ enough, ∃ after,
    statIn env fuel dir super (text filename.bytes) world = statInode env super inode after
  locates : ∃ enough, ∀ fuel ≥ enough, ∃ after,
    locateIn env fuel dir super (text filename.bytes) world = locateInode env super inode after

/- The first record whose name is a prefix of the filename is deleted like every record of
that name, or shares its inode with one of them. -/
def Clear (filename : Name) (records : List Record) : Prop :=
  ∀ r, firstPrefix filename records = some r →
    if r.inode = 0 then ∀ s ∈ records, s.name = filename → s.inode = 0
    else ∃ s ∈ records, s.name = filename ∧ s.inode = r.inode

theorem answerIff (filename : Name) (records : List Record) :
    Answer filename records (outcome filename records) ↔ Clear filename records := by
  unfold Clear outcome
  cases first : firstPrefix filename records with
  | some r =>
    have here : Answer filename records r.inode ↔ if r.inode = 0 then ∀ s ∈ records, s.name = filename → s.inode = 0
        else ∃ s ∈ records, s.name = filename ∧ s.inode = r.inode := by
      unfold Answer
      by_cases zero : r.inode = 0
      · simp [zero]
      · simp [zero]
    rw [here]
    exact ⟨fun clear s same => Option.some.inj same ▸ clear,fun clear => clear r rfl⟩
  | none =>
    refine iff_of_true (.inr ⟨rfl,fun r mem same => ?_⟩) fun r some => by cases some
    have differs := List.find?_eq_none.mp first r mem
    rw [same] at differs
    exact absurd (List.isPrefixOf_iff_prefix.mpr (List.prefix_refl _)) differs

theorem resolvesAnswer (listed : Listed env dir world.disk blocks) {super : SuperState} {filename : Name} {inode : Nat}
    (answer : Answer filename blocks.flatten inode) (resolves : ResolvesTo env dir super filename world inode) :
    Answer filename blocks.flatten (outcome filename blocks.flatten) := by
  obtain ⟨first,ends⟩ := listedFinds listed filename rfl
  obtain ⟨second,other⟩ := resolves.finds
  obtain ⟨_,run⟩ := ends (max first second) (Nat.le_max_left _ _)
  obtain ⟨_,again⟩ := other (max first second) (Nat.le_max_right _ _)
  cases run.symm.trans again
  exact answer

/-- A name resolves to the inode of its own record, in the search and in the functions of
both drivers over it, just if the first record whose name is a prefix of it has that inode. -/
theorem resolvesIff (listed : Listed env dir world.disk blocks) (super : SuperState) (filename : Name) :
    (∃ inode, Answer filename blocks.flatten inode ∧ ResolvesTo env dir super filename world inode) ↔
      Clear filename blocks.flatten := by
  rw [← answerIff]
  constructor
  · rintro ⟨inode,answer,resolves⟩
    exact resolvesAnswer listed answer resolves
  · refine fun answer => ⟨_,answer,listedFinds listed filename rfl,?_,?_⟩
    · obtain ⟨enough,ends⟩ := listedFinds listed filename rfl
      refine ⟨enough,fun fuel more => ?_⟩
      obtain ⟨after,run⟩ := ends fuel more
      exact ⟨after,by rw [statIn,run,Outcome.retBind]⟩
    · obtain ⟨enough,ends⟩ := listedFinds listed filename (allocDisk env world)
      obtain ⟨buffer,fresh⟩ := Option.isSome_iff_exists.mp (listed.allocates world.allocs)
      refine ⟨enough,fun fuel more => ?_⟩
      obtain ⟨after,run⟩ := ends fuel more
      refine ⟨after,?_⟩
      simp only [alloc] at run
      simp only [locateIn,alloc,fresh,run,Outcome.retBind]

end Search

theorem dataLt {dir : BasicState} {node : Ext2Inode} {image : Mem} {x : Nat} (data : DataOf dir node image x) :
    x < 2^32 := by
  obtain ⟨q,_,found⟩ := data
  exact lookupLt (directLt node) (fun t i => le32Lt image _) found

def dotRecord : Record := ⟨5,12,⟨[46],by simp⟩,by simp⟩
def dotDotRecord : Record := ⟨2,1012,⟨[46,46],by simp⟩,by simp⟩
def dotBytes : List UInt8 := [5,0,0,0,12,0,1,2,46,0,0,0,2,0,0,0,244,3,2,2,46,46]

def dotDirectory : BasicState := ⟨some ⟨0x41ED,1024,fun i => if i = 0 then 1 else 0,0,0,0⟩,0,1024,5⟩
def dotWorld : World := ⟨fun i => if i < 1024 then 0 else dotBytes.getD (i - 1024) 0,0,0,0⟩

theorem dotListed : Listed ⟨fun _ _ n => n,fun _ => some zeros⟩ dotDirectory dotWorld.disk [[dotRecord,dotDotRecord]] := by
  have size : dotDirectory.blockSize = 1024 := rfl
  refine ⟨fun _ _ _ => le_rfl,fun _ => rfl,by decide,by decide,by decide,_,rfl,?_,fun x data => ?_⟩
  · have here : resolved dotDirectory ⟨0x41ED,1024,fun i => if i = 0 then 1 else 0,0,0,0⟩ dotWorld.disk 0 = some 1 := rfl
    refine .block here (.record ⟨rfl,rfl,rfl,?_⟩ (.record ⟨rfl,rfl,rfl,?_⟩ .done)) (.done rfl)
    · unfold Starts
      decide
    · unfold Starts
      decide
  · have low := dataLt data
    rw [size]
    omega

def dotSuper : SuperState := ⟨"",zeros,0,dotDirectory,SuperBlock.ofBytes zeros⟩

theorem dotResolves : ∃ inode, Answer dotRecord.name [dotRecord,dotDotRecord] inode ∧
    ResolvesTo ⟨fun _ _ n => n,fun _ => some zeros⟩ dotDirectory dotSuper dotRecord.name dotWorld inode := by
  refine (resolvesIff dotListed dotSuper dotRecord.name).mpr fun r first => ?_
  cases first
  exact ⟨dotRecord,List.mem_cons_self,rfl,rfl⟩

theorem dotDotTaken : ¬ ∀ (env : Env) (dir : BasicState) (super : SuperState) (world : World) (blocks : List (List Record))
    (filename : Name), Listed env dir world.disk blocks →
      ∃ inode, Answer filename blocks.flatten inode ∧ ResolvesTo env dir super filename world inode := by
  intro resolves
  obtain ⟨inode,answer,named⟩ := resolves _ _ dotSuper dotWorld _ dotDotRecord.name dotListed
  obtain ⟨_,r,mem,name,taken⟩ | ⟨zero,_⟩ := resolvesAnswer dotListed answer named
  · obtain rfl | rfl : r = dotRecord ∨ r = dotDotRecord := by simpa using mem
    · exact absurd (congrArg Name.bytes name) (by decide)
    · exact absurd taken (by decide)
  · exact absurd zero (by decide)

end Kdrivers.Ext2Directory
