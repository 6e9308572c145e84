import Kdrivers.Ext2Files
import Kdrivers.Ext2Path

/-! From a mount to the bytes of files (super.c, directory.c, file.c): paths are resolved, what
they lead to is opened, and the open files are read and written. -/
namespace Kdrivers.Ext2Open
open Bytes BitFields CString Vfs IndexTree Ext2State Ext2Resolve Ext2Transfer Ext2WriteRead Ext2Super Ext2Directory Ext2File Ext2Inodes
open Ext2Path Ext2Files ArrayStore

section
variable (env : Env) (fuel : Nat) (super : SuperState)

def openFile (names : List Name) (name : Name) (world : World) : Outcome (Option NodeState × World) := do
  let (dir,world) ← openPath env fuel (.super super) names world
  match dir with
  | none => .ret (none,world)
  | some dir => do
    let (args,world) ← dir.locate env fuel (text name.bytes) world
    match args with
    | none => .ret (none,world)
    | some args =>
      let (_,state,world) := initExt2File env true args world
      .ret (state,world)

def openFiles : List (List Name × Name) → World → Outcome (Option (List NodeState) × World)
  | [],world => .ret (some [],world)
  | (names,name)::rest,world => do
    let (state,world) ← openFile env fuel super names name world
    match state with
    | none => .ret (none,world)
    | some state => do
      let (states,world) ← openFiles rest world
      .ret (states.map (state::·),world)

end

structure FileAt (super : SuperState) (dirs : Nat → Option (List (List Record))) (path : List Name × Name) (inode : Nat) :
    Prop where
  named : ∃ n blocks, Leads super dirs 2 path.1 n ∧ dirs n = some blocks ∧ Has blocks.flatten path.2 inode
  groups : InGroups super inode
  real : inode ≠ 0

def diskFile (super : SuperState) (image : Mem) (inode : Nat) : NodeState :=
  ⟨super,⟨some (inodeAt super image inode),super.basic.attributes,super.basic.blockSize,inode⟩⟩

structure IsOpen (env : Env) (super : SuperState) (image : Mem) (inode : Nat) (state : NodeState) : Prop where
  above : state.super = super
  number : state.basic.inode = inode
  size : state.basic.blockSize = super.basic.blockSize
  attributes : ∃ n memory, env.fresh n = some memory ∧ state.basic.attributes = attributesOf memory
  node : ∃ node, state.basic.node = some node ∧ Alike node (inodeAt super image inode)

section
variable {st dir : BasicState} {a b : Ext2Inode} {image : Mem}

theorem tableAlike (size : dir.blockSize = st.blockSize) (alike : Alike a b) {l : Level} {t : Nat}
    (table : TableOf dir a image l t) : TableOf st b image l t := by
  unfold TableOf at table ⊢
  rw [size,entryAlike size] at table
  induction table with
  | top l nonzero =>
    have same : (roots a).top l = (roots b).top l := congrFun alike.top l
    rw [same] at nonzero ⊢
    exact .top l nonzero
  | entry higher _ inside nonzero ih => exact .entry higher ih inside nonzero

theorem soundAlike (size : dir.blockSize = st.blockSize) (alike : Alike a b) (sound : Sound st b image) :
    Sound dir a image := by
  refine ⟨fun l t table => ?_,fun x data => ?_,fun l t table data => ?_⟩
  · rw [size]
    exact sound.tables l t (tableAlike size alike table)
  · rw [size]
    exact sound.data x (dataAlike size alike data)
  · exact sound.apart l t (tableAlike size alike table) (dataAlike size alike data)

theorem withinNear {d p : Nat} {q : Path} (within : q.Within d p) : ∀ i, q = .direct i → i < d := by
  rintro i rfl
  exact within

theorem mappedAlike (size : dir.blockSize = st.blockSize) (alike : Alike a b) {offset length : Nat}
    (mapped : Mapped st b image offset length) : Mapped dir a image offset length := by
  have same {q : Path} (within : q.Within 12 (dir.blockSize / 4)) :
      lookup (roots a) (entryAt dir image) q = lookup (roots b) (entryAt st image) q := by
    rw [entryAlike size]
    exact lookupAlike alike _ (withinNear within)
  refine ⟨soundAlike size alike mapped.sound,fun q r x first second left right => ?_,fun x range => ?_,?_⟩
  · rw [same first] at left
    rw [same second] at right
    rw [size] at first second
    exact mapped.data q r x first second left right
  · have inside := mapped.inside
    have positive : 0 < st.blockSize := Nat.pos_of_ne_zero fun zero => by
      have := range.2
      rw [zero,Nat.mul_zero] at inside
      omega
    have low : x / st.blockSize < 12 + st.blockSize / 4 + (st.blockSize / 4)^2 + (st.blockSize / 4)^3 :=
      (Nat.div_lt_iff_lt_mul positive).mpr (lt_of_lt_of_le range.2 inside)
    have there := mapped.range x range
    rw [layoutBlock] at there ⊢
    rw [size,entryAlike size]
    rwa [lookupAlike alike _ (withinNear (pathWithin low))]
  · rw [size]
    exact mapped.inside

theorem byteAlike (size : dir.blockSize = st.blockSize) (alike : Alike a b) (x : Nat) :
    byteAt dir a image x = byteAt st b image x := by
  rw [byteAt,byteAt,resolvedAlike size alike,size]

end

section
variable {env : Env} {super : SuperState} {image : Mem} {dirs : Nat → Option (List (List Record))}
  (full : env.Full) (allocates : env.Allocates) (loaded : Loaded super) (tree : Tree super image dirs)
  (root : Opened super image (.super super) 2)
include full allocates loaded tree root

theorem fileOpens {path : List Name × Name} {inode : Nat} (there : FileAt super dirs path inode) {now : World}
    (disk : now.disk = image) : ∃ state after, IsOpen env super image inode state ∧ after.disk = image ∧
      Returns (fun fuel => openFile env fuel super path.1 path.2 now) (some state,after) := by
  obtain ⟨n,blocks,leads,held,has⟩ := there.named
  obtain ⟨handle,below,opened,kept,opens⟩ := pathOpens full allocates loaded tree leads root disk
  obtain ⟨node,found,alike,same,locates⟩ := locateFinds full allocates loaded tree opened held has there.groups there.real kept
  obtain ⟨memory,fresh⟩ := Option.isSome_iff_exists.mp (allocates found.allocs)
  refine ⟨⟨super,⟨some node,attributesOf memory,super.basic.blockSize,inode⟩⟩,(alloc env found).2,
    ⟨rfl,rfl,rfl,⟨found.allocs,memory,fresh,rfl⟩,node,rfl,alike⟩,(allocDisk env found).trans same,
    returnsBind opens (returnsBind locates ⟨0,fun fuel _ => ?_⟩)⟩
  simp only [initExt2File,initNode,alloc,fresh]
  rfl

theorem filesOpen (paths : List (List Name × Name)) {inodes : Fin paths.length → Nat}
    (there : ∀ i, FileAt super dirs (paths.get i) (inodes i)) {now : World} (disk : now.disk = image) :
    ∃ (files : Fin paths.length → NodeState) (after : World), (∀ i, IsOpen env super image (inodes i) (files i)) ∧
      after.disk = image ∧ Returns (fun fuel => openFiles env fuel super paths now) (some (List.ofFn files),after) := by
  induction paths generalizing now with
  | nil => exact ⟨fun i => i.elim0,now,fun i => i.elim0,disk,0,fun _ _ => rfl⟩
  | cons path rest ih =>
    obtain ⟨state,middle,own,kept,opens⟩ := fileOpens full allocates loaded tree root (there 0) disk
    obtain ⟨files,after,others,same,run⟩ := ih (fun i => there i.succ) kept
    refine ⟨Fin.cons state files,after,fun i => ?_,same,?_⟩
    · cases i using Fin.cases with
      | zero => exact own
      | succ i => exact others i
    · rw [List.ofFn_succ]
      exact returnsBind opens (returnsBind run ⟨0,fun _ _ => rfl⟩)

end

theorem volumeAlike {ι : Type} {env : Env} {super : SuperState} {image : Mem} {inodes extent : ι → Nat} {files : ι → NodeState}
    {nodes : ι → Ext2Inode} (opened : ∀ i, IsOpen env super image (inodes i) (files i))
    (held : ∀ i, (files i).basic.node = some (nodes i)) (alike : ∀ i, Alike (nodes i) (inodeAt super image (inodes i)))
    (volume : Volume (fun i => diskFile super image (inodes i)) (fun i => inodeAt super image (inodes i)) extent image) :
    Volume files nodes extent image ∧ addresses files nodes image =
      addresses (fun i => diskFile super image (inodes i)) (fun i => inodeAt super image (inodes i)) image := by
  have size (i : ι) : (files i).basic.blockSize = (diskFile super image (inodes i)).basic.blockSize := (opened i).size
  have same : addresses files nodes image =
      addresses (fun i => diskFile super image (inodes i)) (fun i => inodeAt super image (inodes i)) image := by
    funext i x
    exact byteAlike (size i) (alike i) x
  refine ⟨⟨?_,held,volume.short,fun i => mappedAlike (size i) (alike i) (volume.mapped i),?_,?_⟩,same⟩
  · obtain ⟨k,power⟩ := volume.power
    exact ⟨k,fun i => (size i).trans (power i)⟩
  · rw [same]
    exact volume.reached
  · intro i j differ b data
    obtain ⟨others,tables⟩ := volume.apart i j differ b (dataAlike (size i) (alike i) data)
    exact ⟨fun other => others (dataAlike (size j) (alike j) other),
      fun l table => tables l (tableAlike (size j) (alike j) table)⟩

section
variable {st : BasicState} {node : Ext2Inode} {image : Mem} (others : ∀ i < 12, 0 < i → node.direct i = 0)
  (plain : ∀ l, node.top l = 0)
include others plain

theorem onlyLookup {q : Path} (within : q.Within 12 (st.blockSize / 4)) {x : Nat}
    (found : lookup (roots node) (entryAt st image) q = some x) : q = .direct 0 ∧ x = node.direct 0 := by
  have bare (l : Level) : follow ((roots node).top l) = none := by
    change follow (node.top l) = none
    rw [plain]
    rfl
  cases q with
  | direct i =>
    obtain ⟨here,nonzero⟩ := followSome.mp found
    by_cases first : i = 0
    · subst first
      exact ⟨rfl,here.symm⟩
    · have zero : node.direct i = 0 := others i within (Nat.pos_of_ne_zero first)
      exact absurd (here.symm.trans zero) nonzero
  | single i =>
    rw [lookup,bare] at found
    cases found
  | double i j =>
    rw [lookup,bare] at found
    cases found
  | triple i j k =>
    rw [lookup,bare] at found
    cases found

theorem onlyMapped (size : st.blockSize = 1024) (first : node.direct 0 ≠ 0) (small : node.direct 0 < 2^32) {n : Nat}
    (short : n ≤ 1024) : Mapped st node image 0 n := by
  refine ⟨⟨fun l t named => absurd named (noTables plain l t),fun x data => ?_,
    fun l t named => absurd named (noTables plain l t)⟩,fun q r x left right here there => ?_,fun x range => ?_,?_⟩
  · obtain ⟨q,within,found⟩ := data
    rw [(onlyLookup others plain within found).2,size]
    omega
  · rw [(onlyLookup others plain left here).1,(onlyLookup others plain right there).1]
  · have low : x / st.blockSize = 0 := by
      rw [size]
      exact Nat.div_eq_of_lt (by have := range.2; omega)
    rw [layoutBlock,low]
    exact Option.isSome_iff_exists.mpr ⟨_,followPos first⟩
  · rw [size]
    omega

end

def nestedCalls : List (FileCall (Fin 1)) :=
  [⟨0,false,1,2,0,zeros⟩,⟨0,true,2,1,0,fun i => UInt8.ofNat (65 + i)⟩,⟨0,false,1,2,0,zeros⟩]

end Kdrivers.Ext2Open
