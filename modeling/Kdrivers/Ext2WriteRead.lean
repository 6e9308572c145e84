import Kdrivers.Ext2Transfer

/-! Writing a range of a file and reading the file back. Both walks resolve an index the
same way, so they agree with each other; but indices past the singly indirect ones share
blocks with other indices of the file. -/
namespace Kdrivers.Ext2WriteRead
open Bytes BitFields Vfs Ext2State Ext2Traverse Ext2Cache Ext2Resolve Ext2ReadOnly Ext2Layout Ext2Transfer IndexTree

def InRange (offset size x : Nat) : Prop := offset ≤ x ∧ x < offset + size

def layoutBlock (st : BasicState) (node : Ext2Inode) (image : Mem) (b : Nat) : Option Nat :=
  lookup (roots node) (entryAt st image) (path 12 (st.blockSize / 4) b)

/- The pointers of the inode: no two of data name one block, none of data names a table,
those over the range are not zero, and the range is one that the layout can map. -/
structure Mapped (st : BasicState) (node : Ext2Inode) (image : Mem) (offset size : Nat) : Prop where
  sound : Sound st node image
  data : ∀ q r x, q.Within 12 (st.blockSize / 4) → r.Within 12 (st.blockSize / 4) →
    lookup (roots node) (entryAt st image) q = some x → lookup (roots node) (entryAt st image) r = some x → q = r
  range : ∀ x, InRange offset size x → (layoutBlock st node image (x / st.blockSize)).isSome
  inside : offset + size ≤
    (12 + st.blockSize / 4 + (st.blockSize / 4)^2 + (st.blockSize / 4)^3) * st.blockSize

structure ReadsBack (env : Env) (st : BasicState) (node : Ext2Inode) (extent offset size : Nat) (buffer : Mem)
    (world after : World) : Prop where
  own : ∀ into, ∃ fuel a r, ext2ReadInodeData env fuel st (some into) offset size after = .ret (size,a,some r) ∧
    ∀ i < size, r i = buffer i
  others : ∀ o n into, n ≠ 0 → o + n ≤ extent → ∃ fuel count a r later b q,
    ext2ReadInodeData env fuel st (some into) o n world = .ret (count,a,some r) ∧
    ext2ReadInodeData env later st (some into) o n after = .ret (count,b,some q) ∧
    ∀ i < count, ¬ InRange offset size (o + i) → q i = r i
  blocks : ∀ a, after.disk a ≠ world.disk a → ∃ x block, InRange offset size x ∧
    layoutBlock st node world.disk (x / st.blockSize) = some block ∧
    block * st.blockSize ≤ a ∧ a < (block + 1) * st.blockSize

section Addresses
variable {st : BasicState} {node : Ext2Inode} {image : Mem} {offset size : Nat}

theorem byteAtSome {x a : Nat} (at_ : byteAt st node image x = some a) :
    ∃ block, resolved st node image (x / st.blockSize) = some block ∧ a = block * st.blockSize + x % st.blockSize := by
  unfold byteAt at at_
  cases found : resolved st node image (x / st.blockSize) with
  | none => rw [found] at at_; cases at_
  | some block =>
    rw [found] at at_
    cases at_
    exact ⟨block,rfl,rfl⟩

theorem sharedPlace (sized : 4 ≤ st.blockSize) (mapped : Mapped st node image offset size) {x y a : Nat}
    (left : byteAt st node image x = some a) (right : byteAt st node image y = some a) :
    place st.blockSize (x / st.blockSize) = place st.blockSize (y / st.blockSize) ∧
      x % st.blockSize = y % st.blockSize := by
  obtain ⟨b,foundX,rfl⟩ := byteAtSome left
  obtain ⟨d,foundY,same⟩ := byteAtSome right
  have lowX := Nat.mod_lt x (show 0 < st.blockSize by omega)
  have lowY := Nat.mod_lt y (show 0 < st.blockSize by omega)
  by_cases one : b = d
  · subst one
    have within (n : Nat) := placeWithin st.blockSize n (show 0 < st.blockSize / 4 by omega)
    exact ⟨mapped.data _ _ b (within _) (within _) foundX foundY,by omega⟩
  · exact absurd same (blocksApart one lowX lowY)

theorem byteAtShared {x y : Nat} (index : place st.blockSize (x / st.blockSize) = place st.blockSize (y / st.blockSize))
    (inner : x % st.blockSize = y % st.blockSize) : byteAt st node image x = byteAt st node image y := by
  simp only [byteAt,resolved,index,inner]

theorem entryKept (sized : 4 ≤ st.blockSize) (sound : Sound st node image) {disk : Mem}
    (tables : ∀ l t, TableOf st node image l t → ∀ i < st.blockSize,
      disk (t * st.blockSize + i) = image (t * st.blockSize + i)) :
    ∀ l t i, TableOf st node image l t → i < st.blockSize / 4 → entryAt st disk t i = entryAt st image t i := by
  intro l t i named inside
  unfold entryAt
  rw [addrInside sized (sound.tables l t named)]
  exact le32Congr fun j low => by
    rw [Nat.add_assoc]
    exact tables l t named (4 * i + j) (by omega)

theorem byteAtKept (sized : 4 ≤ st.blockSize) {disk : Mem}
    (kept : ∀ l t i, TableOf st node image l t → i < st.blockSize / 4 → entryAt st disk t i = entryAt st image t i)
    (x : Nat) : byteAt st node disk x = byteAt st node image x := by
  have within := placeWithin st.blockSize (x / st.blockSize) (show 0 < st.blockSize / 4 by omega)
  simp only [byteAt,resolved,lookupNamed kept within]

theorem soundKept {disk : Mem} (sound : Sound st node image)
    (kept : ∀ l t i, TableOf st node image l t → i < st.blockSize / 4 → entryAt st disk t i = entryAt st image t i) :
    Sound st node disk :=
  ⟨fun l t named => sound.tables l t (namedSame kept named),fun x led => sound.data x (ledSame kept led),
    fun l t named led => sound.apart l t (namedSame kept named) (ledSame kept led)⟩

end Addresses

structure Writable (m : Masked) (env : Env) (state : NodeState) (node : Ext2Inode) (extent offset size : Nat)
    (world : World) : Prop where
  full : env.Full
  allocates : env.Allocates
  held : state.basic.node = some node
  enabled : m.read state.basic.attributes 1 1 ≠ 0
  power : ∃ k, state.basic.blockSize = 1024 * 2^k
  nonzero : size ≠ 0
  inFile : offset + size ≤ extent
  short : extent < 2^64
  mapped : Mapped state.basic node world.disk offset size

def Alone (bs extent offset size : Nat) : Prop :=
  offset + size ≤ 12 * bs ∨
    (offset + size ≤ (12 + bs / 4) * bs ∧ extent ≤ max offset (12 * bs) + bs / 4 * bs)

section Writes
variable {m : Masked} {env : Env} {state : NodeState} {node : Ext2Inode} {extent offset size : Nat} {world : World}
  (w : Writable m env state node extent offset size world)
include w

theorem Writable.sized : 4 ≤ state.basic.blockSize ∧ state.basic.blockSize = 4 * (state.basic.blockSize / 4) := by
  obtain ⟨k,power⟩ := w.power
  have pos : 0 < 2^k := Nat.two_pow_pos k
  omega

theorem aloneBlock (alone : Alone state.basic.blockSize extent offset size) {y : Nat}
    (range : InRange offset size y) : y / state.basic.blockSize < 12 + state.basic.blockSize / 4 := by
  have pos : 0 < state.basic.blockSize := by have := w.sized; omega
  have reach : y < (12 + state.basic.blockSize / 4) * state.basic.blockSize := by
    obtain low | ⟨low,_⟩ := alone
    · rw [Nat.add_mul]
      have := range.2
      omega
    · have := range.2
      omega
  exact (Nat.div_lt_iff_lt_mul pos).mpr reach

theorem aloneByte (alone : Alone state.basic.blockSize extent offset size) {x y a : Nat} (inside : x < extent)
    (range : InRange offset size y) (left : byteAt state.basic node world.disk x = some a)
    (right : byteAt state.basic node world.disk y = some a) : x = y := by
  obtain ⟨sized,aligned⟩ := w.sized
  have low := aloneBlock w alone range
  obtain ⟨index,inner⟩ := sharedPlace sized w.mapped left right
  have splitX := Nat.div_add_mod x state.basic.blockSize
  have splitY := Nat.div_add_mod y state.basic.blockSize
  have index : place (4 * (state.basic.blockSize / 4)) (x / state.basic.blockSize) =
      place (4 * (state.basic.blockSize / 4)) (y / state.basic.blockSize) := by rwa [← aligned]
  obtain same | ⟨single,later⟩ := placeShared low index
  · rw [← splitX,← splitY,same,inner]
  · have start : 12 * state.basic.blockSize ≤ y := by
      rw [Nat.mul_comm]
      exact (Nat.mul_le_mul_left _ single).trans (Nat.mul_div_le _ _)
    have reach : y + state.basic.blockSize / 4 * state.basic.blockSize ≤ x := by
      have grown := Nat.mul_le_mul_left state.basic.blockSize later
      rw [Nat.mul_add,Nat.mul_comm _ (state.basic.blockSize / 4)] at grown
      omega
    have := range.1
    have := range.2
    obtain direct | ⟨_,few⟩ := alone
    · omega
    · have most : max offset (12 * state.basic.blockSize) ≤ y := max_le range.1 start
      omega

theorem wroteKept {n : Nat} {buffer : Mem} {after : World}
    (wrote : Wrote state.basic node offset size buffer world n after) (done : n = size) :
    (∀ x, byteAt state.basic node after.disk x = byteAt state.basic node world.disk x) ∧
      Sound state.basic node after.disk := by
  have kept := entryKept w.sized.1 w.mapped.sound (wrote.tables done)
  exact ⟨byteAtKept w.sized.1 kept,soundKept w.mapped.sound kept⟩

theorem fileRead {now : World} (same : ∀ x, byteAt state.basic node now.disk x = byteAt state.basic node world.disk x)
    (sound : Sound state.basic node now.disk) {o n : Nat} (some : n ≠ 0) (inside : o + n ≤ extent) (into : Mem) :
    ∃ fuel count a r, ext2ReadInodeData env fuel state.basic (.some into) o n now = .ret (count,a,.some r) ∧
      count ≤ n ∧ (count < n → byteAt state.basic node world.disk (o + count) = none) ∧
      ∀ i < count, ∃ a, byteAt state.basic node world.disk (o + i) = .some a ∧ r i = now.disk a := by
  have := w.short
  obtain ⟨fuel,count,a,r,run,bound,short,copied,_⟩ := readTransfer w.full w.allocates w.sized.1 sound.data w.held
    (by omega : o + n ≤ 2^64) (by omega) some into
  refine ⟨fuel,count,a,r,run 0,bound,fun less => by rw [← same]; exact short less,fun i low => ?_⟩
  rw [← same]
  exact copied.got i low

/-- A write all of whose bytes are alone is read back, and changes nothing else. -/
theorem aloneReadsBack (alone : Alone state.basic.blockSize extent offset size) {buffer : Mem} {after : World}
    (wrote : Wrote state.basic node offset size buffer world size after) :
    ReadsBack env state.basic node extent offset size buffer world after := by
  obtain ⟨kept,sound⟩ := wroteKept w wrote rfl
  have stored := wrote.stored rfl
  have := w.inFile
  constructor
  · intro into
    obtain ⟨fuel,count,a,r,run,bound,short,got⟩ := fileRead w kept sound w.nonzero w.inFile into
    have whole : count = size := by
      by_contra less
      obtain ⟨a,here⟩ := wrote.mapped count (by omega)
      rw [short (by omega)] at here
      cases here
    subst whole
    refine ⟨fuel,a,r,run,fun i low => ?_⟩
    obtain ⟨a,here,byte⟩ := got i low
    obtain ⟨j,below,there,last⟩ | ⟨never,_⟩ := stored.bytes a
    · have one := aloneByte w alone (by omega : offset + j < extent) ⟨by omega,by omega⟩ there here
      rw [byte,last,show j = i by omega]
    · exact absurd here (never i low)
  · intro o n into some inside
    obtain ⟨fuel,count,a,r,run,bound,short,got⟩ := fileRead w (fun _ => rfl) w.mapped.sound some inside into
    obtain ⟨later,other,b,q,rerun,limit,stop,found⟩ := fileRead w kept sound some inside into
    have same : other = count := by
      by_contra apart
      obtain less | more := Nat.lt_or_gt_of_ne apart
      · obtain ⟨a,here,_⟩ := got other less
        rw [stop (by omega)] at here
        cases here
      · obtain ⟨a,here,_⟩ := found count more
        rw [short (by omega)] at here
        cases here
    subst same
    refine ⟨fuel,other,a,r,later,b,q,run,rerun,fun i low outside => ?_⟩
    obtain ⟨c,here,before⟩ := got i low
    obtain ⟨d,there,now⟩ := found i low
    cases here.symm.trans there
    rw [before,now]
    obtain ⟨j,below,written,_⟩ | ⟨_,byte⟩ := stored.bytes c
    · have one := aloneByte w alone (by omega : o + i < extent) ⟨by omega,by omega⟩ here written
      exact absurd ⟨by omega,by omega⟩ outside
    · exact byte
  · intro a changed
    obtain ⟨j,below,written,_⟩ | ⟨_,byte⟩ := stored.bytes a
    · obtain ⟨block,found,rfl⟩ := byteAtSome written
      have range : InRange offset size (offset + j) := ⟨by omega,by omega⟩
      have low := aloneBlock w alone range
      have inner := Nat.mod_lt (offset + j) (show 0 < state.basic.blockSize by have := w.sized; omega)
      refine ⟨offset + j,block,range,?_,by omega,by rw [Nat.add_mul,Nat.one_mul]; omega⟩
      have same := placeIsPath low
      rw [← w.sized.2] at same
      rw [layoutBlock,← same]
      exact found
    · exact absurd byte changed

theorem writesAll {fuel : Nat} {given : Mem} {left : World}
    (returned : ext2WriteInodeData m env fuel state (some given) offset size world = .ret (size,left)) (buffer : Mem) :
    ∃ fuel after, ext2WriteInodeData m env fuel state (some buffer) offset size world = .ret (size,after) ∧
      Wrote state.basic node offset size buffer world size after := by
  have := w.inFile
  have := w.short
  have writes := writeTransfer m w.full w.allocates w.sized.1 w.mapped.sound w.held w.enabled
    (by omega : offset + size ≤ 2^64) (by omega) w.nonzero
  obtain ⟨more,n,after,run,wrote⟩ := writes given
  obtain ⟨rfl,_⟩ := writeAgree m w.held w.enabled w.nonzero run returned
  obtain ⟨fuel,count,after,run,other⟩ := writes buffer
  have whole : count = n := by
    by_contra less
    have bound := other.bound
    obtain ⟨a,here⟩ := wrote.mapped count (by omega)
    rw [other.short (by omega)] at here
    cases here
  subst whole
  exact ⟨fuel,after,run,other⟩

theorem rangeAt {fuel : Nat} {given : Mem} {left : World}
    (returned : ext2WriteInodeData m env fuel state (some given) offset size world = .ret (size,left)) {y : Nat}
    (range : InRange offset size y) : ∃ a, byteAt state.basic node world.disk y = some a := by
  obtain ⟨_,_,_,wrote⟩ := writesAll w returned zeros
  have low := range.1
  have high := range.2
  obtain ⟨a,here⟩ := wrote.mapped (y - offset) (by omega)
  rw [Nat.add_sub_cancel' low] at here
  exact ⟨a,here⟩

theorem tableSize (past : (12 + state.basic.blockSize / 4) * state.basic.blockSize < offset + size) :
    256 ≤ state.basic.blockSize / 4 ∧ state.basic.blockSize / 4 ∣ 2^64 := by
  obtain ⟨k,power⟩ := w.power
  have := Nat.two_pow_pos k
  have count : state.basic.blockSize / 4 = 2^(8 + k) := by rw [power,Nat.pow_add]; omega
  have whole : state.basic.blockSize = 2^(10 + k) := by rw [power,Nat.pow_add]
  have area : 2^(8 + k) * 2^(10 + k) < 2^64 := by
    calc 2^(8 + k) * 2^(10 + k) = state.basic.blockSize / 4 * state.basic.blockSize := by rw [count,whole]
      _ ≤ (12 + state.basic.blockSize / 4) * state.basic.blockSize := Nat.mul_le_mul_right _ (by omega)
      _ < 2^64 := by have := w.inFile; have := w.short; omega
  rw [← Nat.pow_add] at area
  have few := (Nat.pow_lt_pow_iff_right (by decide : 1 < 2)).mp area
  constructor
  · omega
  · rw [count]
    exact Nat.pow_dvd_pow 2 (by omega)

variable (reads : ∀ fuel buffer after,
    ext2WriteInodeData m env fuel state (some buffer) offset size world = .ret (size,after) →
    ReadsBack env state.basic node extent offset size buffer world after)
  {fuel : Nat} {given : Mem} {left : World}
  (returned : ext2WriteInodeData m env fuel state (some given) offset size world = .ret (size,left))
include reads returned

theorem sharedInside {x y a : Nat} (first : InRange offset size x) (second : InRange offset size y) (apart : x ≠ y)
    (here : byteAt state.basic node world.disk x = some a) (there : byteAt state.basic node world.disk y = some a) :
    False := by
  obtain ⟨fuel,after,run,wrote⟩ := writesAll w returned fun i => if i = y - offset then 1 else 0
  obtain ⟨kept,sound⟩ := wroteKept w wrote rfl
  obtain ⟨_,b,r,back,bytes⟩ := (reads _ _ _ run).own zeros
  obtain ⟨_,count,c,q,again,_,_,got⟩ := fileRead w kept sound w.nonzero w.inFile zeros
  obtain ⟨rfl,same,_⟩ := readAgree w.held w.nonzero back again
  cases same
  have one (z : Nat) (range : InRange offset size z) (at_ : byteAt state.basic node world.disk z = some a) :
      r (z - offset) = after.disk a := by
    have := range.1
    have := range.2
    obtain ⟨d,found,byte⟩ := got (z - offset) (by omega)
    rw [show offset + (z - offset) = z by omega,at_] at found
    cases found
    exact byte
  have low := first.1
  have high := first.2
  have base := second.1
  have ceiling := second.2
  have left := bytes (x - offset) (by omega)
  have right := bytes (y - offset) (by omega)
  rw [one x first here,if_neg (by omega)] at left
  rw [one y second there,if_pos rfl,left] at right
  exact absurd right (by decide)

theorem sharedOutside {x y a : Nat} (inside : x < extent) (outside : ¬ InRange offset size x)
    (range : InRange offset size y) (here : byteAt state.basic node world.disk x = some a)
    (there : byteAt state.basic node world.disk y = some a) : False := by
  obtain ⟨fuel,after,run,wrote⟩ := writesAll w returned fun _ => world.disk a + 1
  obtain ⟨kept,sound⟩ := wroteKept w wrote rfl
  have changed : after.disk a = world.disk a + 1 := by
    obtain ⟨j,_,_,byte⟩ | ⟨never,_⟩ := (wrote.stored rfl).bytes a
    · exact byte
    · have low := range.1
      have high := range.2
      exact absurd (by rw [Nat.add_sub_cancel' low]; exact there) (never (y - offset) (by omega))
  obtain ⟨_,count,c,r,_,d,q,before,later,same⟩ := (reads _ _ _ run).others x 1 zeros (by decide) (by omega)
  obtain ⟨_,n,_,r',run',bound,short,got⟩ := fileRead w (fun _ => rfl) w.mapped.sound Nat.one_ne_zero
    (by omega : x + 1 ≤ extent) zeros
  obtain ⟨_,l,_,q',rerun,limit,stop,found⟩ := fileRead w kept sound Nat.one_ne_zero
    (by omega : x + 1 ≤ extent) zeros
  have full (k : Nat) (stop : k < 1 → byteAt state.basic node world.disk (x + k) = none) : 0 < k := by
    by_contra none
    have zero : k = 0 := by omega
    subst zero
    rw [Nat.add_zero,here] at stop
    cases stop (by decide)
  obtain ⟨rfl,one,_⟩ := readAgree w.held Nat.one_ne_zero before run'
  obtain ⟨rfl,two,_⟩ := readAgree w.held Nat.one_ne_zero later rerun
  cases one
  cases two
  have some := full _ short
  obtain ⟨e,at_,byte⟩ := got 0 some
  obtain ⟨f,at',byte'⟩ := found 0 some
  rw [Nat.add_zero,here] at at_ at'
  cases at_
  cases at'
  have unchanged := same 0 some outside
  rw [byte,byte',changed] at unchanged
  simp at unchanged

theorem sharedFails {x y a : Nat} (inside : x < extent) (range : InRange offset size y) (apart : x ≠ y)
    (here : byteAt state.basic node world.disk x = some a) (there : byteAt state.basic node world.disk y = some a) :
    False := by
  by_cases first : InRange offset size x
  · exact sharedInside w reads returned first range apart here there
  · exact sharedOutside w reads returned inside first range here there

theorem placesFail {b d : Nat} (apart : b < d) (range : ∃ j < state.basic.blockSize,
      InRange offset size (d * state.basic.blockSize + j))
    (same : place state.basic.blockSize b = place state.basic.blockSize d) : False := by
  obtain ⟨j,low,range⟩ := range
  obtain ⟨a,there⟩ := rangeAt w returned range
  have pos : 0 < state.basic.blockSize := by omega
  have split (n : Nat) : (n * state.basic.blockSize + j) / state.basic.blockSize = n ∧
      (n * state.basic.blockSize + j) % state.basic.blockSize = j := by
    rw [Nat.mul_comm,Nat.mul_add_div pos,Nat.div_eq_of_lt low,Nat.mul_add_mod,Nat.mod_eq_of_lt low]
    exact ⟨Nat.add_zero n,rfl⟩
  have here : byteAt state.basic node world.disk (b * state.basic.blockSize + j) = some a := by
    rw [← there]
    exact byteAtShared (by rw [(split b).1,(split d).1]; exact same) (by rw [(split b).2,(split d).2])
  have before : b * state.basic.blockSize + state.basic.blockSize ≤ d * state.basic.blockSize := by
    rw [← Nat.succ_mul]
    exact Nat.mul_le_mul_right _ apart
  have := range.2
  have := w.inFile
  exact sharedFails w reads returned (by omega) range (by omega) here there

theorem farFails {y z : Nat} (first : InRange offset size y) (last : InRange offset size z)
    (high : 12 ≤ y / state.basic.blockSize)
    (far : y / state.basic.blockSize + 9 * (state.basic.blockSize / 4) < z / state.basic.blockSize) : False := by
  obtain ⟨sized,aligned⟩ := w.sized
  have pos : 0 < state.basic.blockSize := by omega
  have before := Nat.lt_mul_div_succ y pos
  have after := Nat.mul_div_le z state.basic.blockSize
  have group := Nat.div_add_mod (y / state.basic.blockSize - 12) (4 * (state.basic.blockSize / 4))
  have inner := Nat.mod_lt (y / state.basic.blockSize - 12) (show 0 < 4 * (state.basic.blockSize / 4) by omega)
  -- the first index of the next group
  obtain ⟨b,start⟩ : ∃ b, b = 12 + 4 * (state.basic.blockSize / 4) *
    ((y / state.basic.blockSize - 12) / (4 * (state.basic.blockSize / 4)) + 1) := ⟨_,rfl⟩
  have zero : (b - 12) % (4 * (state.basic.blockSize / 4)) = 0 := by
    rw [start,Nat.add_sub_cancel_left,Nat.mul_mod_right]
  have same := placeShift (p := state.basic.blockSize / 4) (b := b) (by omega) (by omega)
  rw [← aligned] at same
  rw [Nat.mul_succ] at start
  have low := Nat.mul_le_mul_left state.basic.blockSize
    (by omega : y / state.basic.blockSize + 1 ≤ b + state.basic.blockSize / 4)
  have high := Nat.mul_le_mul_left state.basic.blockSize
    (by omega : b + state.basic.blockSize / 4 ≤ z / state.basic.blockSize)
  have := first.1
  have := last.2
  refine placesFail w reads returned (by omega : b < b + state.basic.blockSize / 4) ⟨0,pos,?_,?_⟩ same.symm
  · rw [Nat.mul_comm (b + _)]
    omega
  · rw [Nat.mul_comm (b + _)]
    omega

theorem pastFails (past : (12 + state.basic.blockSize / 4) * state.basic.blockSize < offset + size) : False := by
  obtain ⟨sized,aligned⟩ := w.sized
  have pos : 0 < state.basic.blockSize := by omega
  obtain ⟨large,divides⟩ := tableSize w past
  -- the first byte of the range past the singly indirect blocks
  obtain ⟨y,first⟩ : ∃ y, y = max offset ((12 + state.basic.blockSize / 4) * state.basic.blockSize) := ⟨_,rfl⟩
  have range : InRange offset size y := ⟨by omega,by have := w.nonzero; omega⟩
  have high : 12 + state.basic.blockSize / 4 ≤ y / state.basic.blockSize :=
    (Nat.le_div_iff_mul_le pos).mpr (by omega)
  have indexLt (z : Nat) (range : InRange offset size z) : z / state.basic.blockSize <
      12 + state.basic.blockSize / 4 + (state.basic.blockSize / 4)^2 + (state.basic.blockSize / 4)^3 :=
    (Nat.div_lt_iff_lt_mul pos).mpr (lt_of_lt_of_le range.2 w.mapped.inside)
  obtain ⟨a,here⟩ := rangeAt w returned range
  obtain ⟨block,found,rfl⟩ := byteAtSome here
  obtain ⟨_,after,run,wrote⟩ := writesAll w returned fun _ =>
    world.disk (block * state.basic.blockSize + y % state.basic.blockSize) + 1
  have changed : after.disk (block * state.basic.blockSize + y % state.basic.blockSize) ≠
      world.disk (block * state.basic.blockSize + y % state.basic.blockSize) := by
    obtain ⟨j,_,_,byte⟩ | ⟨never,_⟩ := (wrote.stored rfl).bytes
        (block * state.basic.blockSize + y % state.basic.blockSize)
    · rw [byte]
      simp
    · have := range.1
      have := range.2
      exact absurd (by rw [Nat.add_sub_cancel' range.1]; exact here) (never (y - offset) (by omega))
  obtain ⟨z,other,inside,layout,lower,upper⟩ := (reads _ _ _ run).blocks _ changed
  have one : other = block := by
    have inner := Nat.mod_lt y pos
    by_contra apart
    refine blocksApart apart (i := block * state.basic.blockSize + y % state.basic.blockSize -
      other * state.basic.blockSize) ?_ inner (by omega)
    rw [Nat.add_mul,Nat.one_mul] at upper
    omega
  subst one
  have same : place state.basic.blockSize (y / state.basic.blockSize) =
      path 12 (state.basic.blockSize / 4) (z / state.basic.blockSize) :=
    w.mapped.data _ _ other (placeWithin _ _ (by omega)) (pathWithin (indexLt z inside)) found layout
  have placed : place (4 * (state.basic.blockSize / 4)) (y / state.basic.blockSize) =
      path 12 (state.basic.blockSize / 4) (z / state.basic.blockSize) := by rwa [← aligned]
  obtain less | equal | more := Nat.lt_trichotomy (z / state.basic.blockSize) (y / state.basic.blockSize)
  · -- an index of the range before it, which is then a singly indirect one
    have low : z / state.basic.blockSize < 12 + state.basic.blockSize / 4 := by
      by_contra beyond
      have from_ : (12 + state.basic.blockSize / 4) * state.basic.blockSize ≤ z :=
        (Nat.le_div_iff_mul_le pos).mp (Nat.le_of_not_lt beyond)
      have := inside.1
      exact absurd (Nat.div_le_div_right (c := state.basic.blockSize) (by omega : y ≤ z)) (by omega)
    have own := placeIsPath low
    rw [← aligned] at own
    have split := Nat.div_add_mod y state.basic.blockSize
    rw [Nat.mul_comm] at split
    refine placesFail w reads returned less ⟨y % state.basic.blockSize,Nat.mod_lt y pos,?_⟩ (own.trans same.symm)
    rwa [split]
  · rw [equal] at placed
    exact placeApart large divides high (indexLt y range) placed
  · -- an index far on, with others between that share a place
    exact farFails w reads returned range inside (by omega) (placeLater large divides high more (indexLt y range) placed)

/-- Where every write that returns size is read back, the range is alone. -/
theorem readsBackAlone : Alone state.basic.blockSize extent offset size := by
  obtain ⟨sized,aligned⟩ := w.sized
  have pos : 0 < state.basic.blockSize := by omega
  have whole : ¬ (12 + state.basic.blockSize / 4) * state.basic.blockSize < offset + size :=
    pastFails w reads returned
  refine Decidable.or_iff_not_imp_left.mpr fun single => ⟨Nat.le_of_not_lt whole,?_⟩
  by_contra large
  -- the first singly indirect byte of the range, and the byte of the file p blocks on
  obtain ⟨y,first⟩ : ∃ y, y = max offset (12 * state.basic.blockSize) := ⟨_,rfl⟩
  have range : InRange offset size y := ⟨by omega,by have := w.nonzero; omega⟩
  obtain ⟨a,here⟩ := rangeAt w returned range
  have high : 12 ≤ y / state.basic.blockSize := (Nat.le_div_iff_mul_le pos).mpr (by omega)
  have low : y / state.basic.blockSize < 12 + state.basic.blockSize / 4 :=
    (Nat.div_lt_iff_lt_mul pos).mpr (lt_of_lt_of_le range.2 (Nat.le_of_not_lt whole))
  have shift : (y + state.basic.blockSize / 4 * state.basic.blockSize) / state.basic.blockSize =
      y / state.basic.blockSize + state.basic.blockSize / 4 := Nat.add_mul_div_right _ _ pos
  have same : place state.basic.blockSize (y / state.basic.blockSize + state.basic.blockSize / 4) =
      place state.basic.blockSize (y / state.basic.blockSize) := by
    have moved := placeShift high (p := state.basic.blockSize / 4) (by rw [Nat.mod_eq_of_lt (by omega)]; omega)
    rwa [← aligned] at moved
  have there : byteAt state.basic node world.disk (y + state.basic.blockSize / 4 * state.basic.blockSize) = some a := by
    rw [← here]
    exact byteAtShared (by rw [shift]; exact same) (Nat.add_mul_mod_self_right _ _ _)
  have apart : 0 < state.basic.blockSize / 4 * state.basic.blockSize := Nat.mul_pos (by omega) pos
  exact sharedFails w reads returned (by omega) range (by omega) there here

end Writes

/-- Where the write returns size, it is read back and changes nothing else, whatever the
buffer, exactly if no other byte of the file shares a block with the range. -/
theorem readsBackIff {m : Masked} {env : Env} {state : NodeState} {node : Ext2Inode} {extent offset size : Nat}
    {world : World} (w : Writable m env state node extent offset size world)
    (returned : ∃ fuel given left,
      ext2WriteInodeData m env fuel state (some given) offset size world = .ret (size,left)) :
    (∀ fuel buffer after, ext2WriteInodeData m env fuel state (some buffer) offset size world = .ret (size,after) →
      ReadsBack env state.basic node extent offset size buffer world after) ↔
    Alone state.basic.blockSize extent offset size := by
  obtain ⟨_,_,_,returned⟩ := returned
  constructor
  · intro reads
    exact readsBackAlone w reads returned
  · intro alone fuel buffer after run
    obtain ⟨_,left,rerun,wrote⟩ := writesAll w returned buffer
    obtain ⟨_,rfl⟩ := writeAgree m w.held w.enabled w.nonzero run rerun
    exact aloneReadsBack w alone wrote

def loneFile (q : Path) : NodeState where
  super := ⟨"",zeros,0,⟨none,0,1024,2⟩,SuperBlock.ofBytes zeros⟩
  basic := ⟨some (nodeOf q),2,1024,12⟩

def loneWorld (q : Path) : World := ⟨imageOf 1024 q,0,0,0⟩

def wholeEnv : Env := ⟨fun _ _ n => n,fun _ => some zeros⟩

@[simp] theorem loneSize (q : Path) : (loneFile q).basic.blockSize = 1024 := rfl

theorem loneCount (q : Path) : (loneFile q).basic.blockSize / 4 = 256 := by rw [loneSize]

theorem loneImage (q : Path) {r : Path} (within : r.Within 12 256) :
    lookup (roots (nodeOf q)) (entryAt (loneFile q).basic (imageOf 1024 q)) r =
      lookup (loneRoots q) (loneEntry q) r := by
  have same := lookupOfImage (loneFile q).basic (p := 256) rfl (by simp) q within
  rwa [loneSize] at same

theorem loneLookup {q r : Path} (within : r.Within 12 256) {x : Nat}
    (found : lookup (roots (nodeOf q)) (entryAt (loneFile q).basic (imageOf 1024 q)) r = some x) : r = q ∧ x ≤ 4 := by
  rw [loneImage q within] at found
  by_cases here : r = q
  · subst here
    refine ⟨rfl,?_⟩
    cases r <;> simp [lookup,loneRoots,loneEntry,follow] at found <;> omega
  · rw [loneOther here] at found
    cases found

theorem loneWritable {q : Path} {b extent : Nat} (index : path 12 256 b = q) (inside : b < 12 + 256 + 256^2 + 256^3)
    (plain : ∀ l t, TableOf (loneFile q).basic (nodeOf q) (imageOf 1024 q) l t → t = 1 ∧
      lookup (loneRoots q) (loneEntry q) q ≠ some 1)
    (inFile : b * 1024 + 1 ≤ extent) (short : extent < 2^64) :
    Writable .standard wholeEnv (loneFile q) (nodeOf q) extent (b * 1024) 1 (loneWorld q) := by
  have within : q.Within 12 256 := by
    rw [← index]
    exact pathWithin inside
  have found := loneImage q within
  refine ⟨fun _ _ _ => le_rfl,fun _ => rfl,rfl,by simp [Masked.standard,loneFile],⟨0,rfl⟩,Nat.one_ne_zero,inFile,
    short,⟨⟨?_,?_,?_⟩,?_,?_,?_⟩⟩
  · intro l t named
    rw [(plain l t named).1]
    simp
  · rintro x ⟨r,inner,led⟩
    rw [loneCount] at inner
    rw [loneSize]
    exact (Nat.mul_le_mul_right 1024 (Nat.succ_le_succ (loneLookup inner led).2)).trans (by decide)
  · rintro l t named ⟨r,inner,led⟩
    rw [loneCount] at inner
    obtain ⟨rfl,other⟩ := plain l t named
    obtain ⟨rfl,_⟩ := loneLookup inner led
    exact other (found ▸ led)
  · intro r s x first second left right
    rw [loneCount] at first second
    rw [(loneLookup first left).1,(loneLookup second right).1]
  · intro x range
    have low := range.1
    have high := range.2
    have here : x = b * 1024 := by omega
    rw [here,layoutBlock,loneSize,Nat.mul_div_cancel b (by decide),index]
    exact found ▸ loneFound q
  · rw [loneSize]
    omega

theorem onlySingle {st : BasicState} {node : Ext2Inode} {image : Mem} {b : Nat} (single : node.top .single = b)
    (double : node.top .double = 0) (triple : node.top .triple = 0) {l : Level} {t : Nat}
    (named : TableOf st node image l t) : l = .single ∧ t = b := by
  induction named with
  | top l nonzero =>
    cases l with
    | single => exact ⟨rfl,single⟩
    | double => exact absurd double nonzero
    | triple => exact absurd triple nonzero
  | entry higher _ _ _ ih => cases higher <;> cases ih.1

def crossNode : Ext2Inode := ⟨0,0,fun i => if i = 11 then 3 else 0,1,0,0⟩

def crossFile : NodeState := ⟨(loneFile (.direct 0)).super,⟨some crossNode,2,1024,12⟩⟩

def crossWorld : World := ⟨fun a => if a = 1024 then 2 else 0,0,0,0⟩

theorem crossEntry {i : Nat} (inside : i < 256) : entryAt crossFile.basic crossWorld.disk 1 i = if i = 0 then 2 else 0 := by
  change le32 crossWorld.disk (1024 + 4 * i) = _
  by_cases first : i = 0
  · subst first
    rfl
  · rw [if_neg first]
    have other (j : Nat) : crossWorld.disk (1024 + 4 * i + j) = 0 := if_neg (by omega)
    exact (le32Congr fun j _ => other j).trans (b := le32 zeros (1024 + 4 * i)) rfl

theorem crossLookup {q : Path} (within : q.Within 12 256) {x : Nat}
    (found : lookup (roots crossNode) (entryAt crossFile.basic crossWorld.disk) q = some x) :
    q = .direct 11 ∧ x = 3 ∨ q = .single 0 ∧ x = 2 := by
  cases q with
  | direct i =>
    obtain ⟨here,nonzero⟩ := followSome.mp found
    change (if i = 11 then 3 else 0 : UInt32).toNat = x at here
    split_ifs at here with last
    · exact .inl ⟨congrArg _ last,here.symm⟩
    · exact absurd here.symm nonzero
  | single i =>
    have here : entryAt crossFile.basic crossWorld.disk 1 i = x ∧ x ≠ 0 := followSome.mp found
    rw [crossEntry within] at here
    split_ifs at here with first
    · exact .inr ⟨congrArg _ first,here.1.symm⟩
    · exact absurd here.1.symm here.2
  | double i j => cases found
  | triple i j k => cases found

theorem crossWritable : Writable .standard wholeEnv crossFile crossNode (13 * 1024) (12 * 1024 - 1) 2 crossWorld := by
  have bytes : crossFile.basic.blockSize = 1024 := rfl
  refine ⟨fun _ _ _ => le_rfl,fun _ => rfl,rfl,by decide,⟨0,rfl⟩,by decide,by decide,by decide,
    ⟨⟨?_,?_,?_⟩,?_,?_,by decide⟩⟩
  · intro l t named
    rw [(onlySingle rfl rfl rfl named).2]
    decide
  · rintro x ⟨q,within,found⟩
    obtain ⟨_,rfl⟩ | ⟨_,rfl⟩ := crossLookup within found <;> decide
  · rintro l t named ⟨q,within,found⟩
    rw [(onlySingle rfl rfl rfl named).2] at found
    obtain ⟨_,other⟩ | ⟨_,other⟩ := crossLookup within found <;> cases other
  · intro q r x first second left right
    obtain ⟨rfl,rfl⟩ | ⟨rfl,rfl⟩ := crossLookup first left <;>
      obtain ⟨rfl,same⟩ | ⟨rfl,same⟩ := crossLookup second right <;> first | rfl | cases same
  · intro x range
    have low := range.1
    have high := range.2
    obtain rfl | rfl : x = 12 * 1024 - 1 ∨ x = 12 * 1024 := by omega
    · rfl
    · rfl

theorem crossingWritten : ∃ after, let buffer : Mem := fun i => UInt8.ofNat (7 + i)
    ext2WriteInodeData .standard wholeEnv 3 crossFile (some buffer) (12 * 1024 - 1) 2 crossWorld = .ret (2,after) ∧
      ReadsBack wholeEnv crossFile.basic crossNode (13 * 1024) (12 * 1024 - 1) 2 buffer crossWorld after := by
  obtain ⟨left,run⟩ : ∃ left, ext2WriteInodeData .standard wholeEnv 3 crossFile (some fun i => UInt8.ofNat (7 + i))
    (12 * 1024 - 1) 2 crossWorld = .ret (2,left) := ⟨_,rfl⟩
  exact ⟨left,run,(readsBackIff crossWritable ⟨3,_,left,run⟩).mpr (.inr (by decide)) 3 _ left run⟩

theorem singleWritable : Writable .standard wholeEnv (loneFile (.single 0)) (nodeOf (.single 0)) (269 * 1024) (12 * 1024)
    1 (loneWorld (.single 0)) :=
  loneWritable rfl (by decide) (fun l t named => ⟨(onlySingle rfl rfl rfl named).2,by decide⟩) (by decide) (by decide)

theorem singleShared : ¬ ∀ (m : Masked) (env : Env) (state : NodeState) (node : Ext2Inode) (extent offset size : Nat)
    (world : World), Writable m env state node extent offset size world →
    ∀ fuel buffer after, ext2WriteInodeData m env fuel state (some buffer) offset size world = .ret (size,after) →
      ReadsBack env state.basic node extent offset size buffer world after := by
  intro reads
  obtain ⟨left,run⟩ : ∃ left, ext2WriteInodeData .standard wholeEnv 2 (loneFile (.single 0)) (some zeros) (12 * 1024)
    1 (loneWorld (.single 0)) = .ret (1,left) := ⟨_,rfl⟩
  have alone := readsBackAlone singleWritable (reads _ _ _ _ _ _ _ _ singleWritable) run
  revert alone
  unfold Alone
  decide

end Kdrivers.Ext2WriteRead
