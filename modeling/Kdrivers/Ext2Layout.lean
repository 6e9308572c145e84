import Kdrivers.Ext2ReadOnly

/-! Where the index arithmetic of the traversal agrees with the ext2 layout: up to the
last singly indirect block. Past it doubly_idx counts by block_size bytes where a table
holds block_size / 4 pointers. -/
namespace Kdrivers.Ext2Layout
open Bytes Vfs Ext2State Ext2Traverse Ext2Cache Ext2Resolve Ext2ReadOnly IndexTree

theorem placeDirect {bs b : Nat} (low : b < 12) : place bs b = .direct b := if_pos low

theorem placeSingle {p b : Nat} (high : 12 ≤ b) (low : b < 12 + p) : place (4 * p) b = .single (b - 12) := by
  have zero : (b - 12) / (4 * p) = 0 := Nat.div_eq_of_lt (by omega)
  have count : 4 * p / 4 = p := Nat.mul_div_cancel_left p (by decide)
  have inside : (b - 12) % p = b - 12 := Nat.mod_eq_of_lt (by omega)
  simp only [place,if_neg (show ¬ b < 12 by omega),zero,Nat.zero_div,count,inside]
  rfl

theorem pathSingle {p b : Nat} (high : 12 ≤ b) (low : b < 12 + p) : path 12 p b = .single (b - 12) := by
  rw [path,if_neg (by omega),if_pos (by omega)]

theorem placeIsPath {p b : Nat} (low : b < 12 + p) : place (4 * p) b = path 12 p b := by
  by_cases direct : b < 12
  · rw [placeDirect direct,path,if_pos direct]
  · rw [placeSingle (by omega) low,pathSingle (by omega) low]

theorem predPos {a : Nat} (pos : 1 ≤ a) (fits : a ≤ 2^64) : pred64 a = a - 1 := by
  unfold pred64
  rw [show a + (2^64 - 1) = a - 1 + 2^64 by omega,Nat.add_mod_right,Nat.mod_eq_of_lt (by omega)]

theorem predZero {p : Nat} (pos : 0 < p) (divides : p ∣ 2^64) : pred64 0 % p = p - 1 := by
  obtain ⟨m,split⟩ := divides
  have some : m ≠ 0 := by rintro rfl; simp at split
  obtain ⟨m,rfl⟩ := Nat.exists_eq_succ_of_ne_zero some
  have whole : pred64 0 = p * m + (p - 1) := by
    have last : pred64 0 = 2^64 - 1 := rfl
    rw [last,split,Nat.mul_succ]
    omega
  rw [whole,Nat.mul_add_mod,Nat.mod_eq_of_lt (by omega)]

theorem pathPast {p b : Nat} (past : 12 + p ≤ b) : path 12 p b =
    if b - 12 - p < p^2 then .double ((b - 12 - p) / p) ((b - 12 - p) % p)
    else .triple ((b - 12 - p - p^2) / p^2) ((b - 12 - p - p^2) / p % p) ((b - 12 - p - p^2) % p) := by
  rw [path,if_neg (by omega),if_neg (by omega)]

theorem doubleEarly {p s : Nat} (pos : 0 < p) (some : 1 ≤ s / (4 * p)) : s / (4 * p) - 1 < (s - p) / p := by
  have four : 4 * p * (s / (4 * p)) ≤ s := Nat.mul_div_le s (4 * p)
  have least : (4 * (s / (4 * p)) - 1) * p ≤ s - p := by
    rw [Nat.sub_mul,Nat.one_mul]
    exact Nat.sub_le_sub_right (by calc 4 * (s / (4 * p)) * p = 4 * p * (s / (4 * p)) := by ring
      _ ≤ s := four) p
  have := (Nat.le_div_iff_mul_le pos).mpr least
  omega

theorem tripleFar {p b d : Nat} (large : 256 ≤ p) (divides : p ∣ 2^64) (past : 12 + p ≤ b)
    (inside : b < 12 + p + p^2 + p^3)
    (first : pred64 ((b - 12) / (4 * p) / (4 * p)) % p = (d - 12 - p - p^2) / p^2) : d < b ∨ b + 9 * p < d := by
  have pos : 0 < p^2 := by positivity
  have most : p ≤ 2^64 := Nat.le_of_dvd (by decide) divides
  have square : (b - 12) / (4 * p) / (4 * p) = (b - 12) / (16 * p^2) := by
    rw [Nat.div_div_eq_div_mul,show 4 * p * (4 * p) = 16 * p^2 by ring]
  have linear : 256 * p ≤ p^2 := by
    rw [sq]
    exact Nat.mul_le_mul_right p large
  have cube : 256 * p^2 ≤ p^3 := by
    rw [show p^3 = p * p^2 by ring]
    exact Nat.mul_le_mul_right _ large
  rw [square] at first
  by_cases none : (b - 12) / (16 * p^2) = 0
  · rw [none,predZero (by omega) divides] at first
    have short : b - 12 < 16 * p^2 := (Nat.div_eq_zero_iff_lt (by omega)).mp none
    have reach : p^2 * (p - 1) ≤ d - 12 - p - p^2 := by
      rw [first]
      exact Nat.mul_div_le _ _
    rw [Nat.mul_sub,Nat.mul_one,show p^2 * p = p^3 by ring] at reach
    omega
  · have reach : 16 * p^2 * ((b - 12) / (16 * p^2)) ≤ b - 12 := Nat.mul_div_le _ _
    have small : (b - 12) / (16 * p^2) < p := by
      refine Nat.div_lt_of_lt_mul ?_
      rw [Nat.mul_assoc,show p^2 * p = p^3 by ring]
      omega
    rw [predPos (Nat.pos_of_ne_zero none) (small.le.trans most),Nat.mod_eq_of_lt (by omega)] at first
    have upper : d - 12 - p - p^2 < p^2 * ((b - 12) / (16 * p^2)) := by
      have split := Nat.lt_mul_div_succ (d - 12 - p - p^2) pos
      rw [← first,Nat.sub_add_cancel (Nat.pos_of_ne_zero none)] at split
      exact split
    have spread : 16 * p^2 * ((b - 12) / (16 * p^2)) = 16 * (p^2 * ((b - 12) / (16 * p^2))) := by ring
    have grown : p^2 ≤ p^2 * ((b - 12) / (16 * p^2)) := Nat.le_mul_of_pos_right _ (Nat.pos_of_ne_zero none)
    omega

theorem placeApart {p b : Nat} (large : 256 ≤ p) (divides : p ∣ 2^64) (past : 12 + p ≤ b)
    (inside : b < 12 + p + p^2 + p^3) : place (4 * p) b ≠ path 12 p b := by
  have count : 4 * p / 4 = p := Nat.mul_div_cancel_left p (by decide)
  have most : p ≤ 2^64 := Nat.le_of_dvd (by decide) divides
  rw [pathPast past]
  simp only [place,if_neg (show ¬ b < 12 by omega),count]
  split_ifs with none double deep double double
  · nofun
  · nofun
  · nofun
  · intro same
    injection same with first
    have := tripleFar large divides past inside first
    omega
  · intro same
    injection same with first
    have some : 1 ≤ (b - 12) / (4 * p) := by
      refine Nat.pos_of_ne_zero fun zero => none ?_
      simp [zero]
    have early := doubleEarly (by omega) some
    generalize (b - 12) / (4 * p) = doubly at deep some early first
    rw [predPos some (by omega),Nat.mod_eq_of_lt (by omega)] at first
    omega
  · nofun

/-- The arithmetic finds the place of the layout up to the singly indirect blocks. -/
theorem placeIff {p b : Nat} (large : 256 ≤ p) (divides : p ∣ 2^64) (inside : b < 12 + p + p^2 + p^3) :
    place (4 * p) b = path 12 p b ↔ b < 12 + p := by
  constructor
  · intro same
    by_contra past
    exact placeApart large divides (by omega) inside same
  · exact placeIsPath

theorem placeRank (bs b : Nat) : (place bs b).rank = if b < 12 then 0 else if (b - 12) / bs = 0 then 1
    else if (b - 12) / bs ≥ bs / 4 + 1 then 3 else 2 := by
  unfold place
  dsimp only
  by_cases zero : (b - 12) / bs = 0
  · simp only [zero,Nat.zero_div]
    split_ifs <;> first | rfl | contradiction
  · have some : ¬ ((b - 12) / bs ||| (b - 12) / bs / bs) = 0 := by
      rw [Nat.or_eq_zero_iff]
      exact fun both => zero both.1
    rw [if_neg some,if_neg zero]
    split_ifs <;> rfl

theorem placeRankMono {bs b d : Nat} (le : b ≤ d) : (place bs b).rank ≤ (place bs d).rank := by
  have up : (b - 12) / bs ≤ (d - 12) / bs := Nat.div_le_div_right (by omega)
  rw [placeRank,placeRank]
  generalize (b - 12) / bs = low at up
  generalize (d - 12) / bs = high at up
  split_ifs <;> omega

theorem placeWithin (bs b : Nat) (some : 0 < bs / 4) : (place bs b).Within 12 (bs / 4) := by
  have inside (n : Nat) : n % (bs / 4) < bs / 4 := Nat.mod_lt _ some
  unfold place
  dsimp only
  split_ifs with low
  · exact low
  · exact inside _
  · exact ⟨inside _,inside _,inside _⟩
  · exact ⟨inside _,inside _⟩

theorem placeShift {p b : Nat} (high : 12 ≤ b) (group : (b - 12) % (4 * p) + p < 4 * p) :
    place (4 * p) (b + p) = place (4 * p) b := by
  have split := Nat.div_add_mod (b - 12) (4 * p)
  have doubly : (b + p - 12) / (4 * p) = (b - 12) / (4 * p) := by
    rw [show b + p - 12 = 4 * p * ((b - 12) / (4 * p)) + ((b - 12) % (4 * p) + p) by omega,
      Nat.mul_add_div (by omega),Nat.div_eq_of_lt group,Nat.add_zero]
  have singly : (b + p - 12) % p = (b - 12) % p := by
    rw [show b + p - 12 = b - 12 + p by omega,Nat.add_mod_right]
  have count : 4 * p / 4 = p := Nat.mul_div_cancel_left p (by decide)
  simp only [place,if_neg (show ¬ b < 12 by omega),if_neg (show ¬ b + p < 12 by omega),doubly,count,singly]

theorem placeShared {p b d : Nat} (low : b < 12 + p) (same : place (4 * p) d = place (4 * p) b) :
    d = b ∨ (12 ≤ b ∧ b + p ≤ d) := by
  have count : 4 * p / 4 = p := Nat.mul_div_cancel_left p (by decide)
  by_cases direct : b < 12
  · rw [placeDirect direct] at same
    simp only [place] at same
    split_ifs at same with here
    injection same with index
    exact .inl index
  · rw [placeSingle (by omega) low] at same
    simp only [place,count] at same
    split_ifs at same with here none
    injection same with index
    by_cases first : d - 12 < p
    · rw [Nat.mod_eq_of_lt first] at index
      omega
    · have := Nat.mod_lt (d - 12) (show 0 < p by omega)
      have reach : (d - 12) % p + p ≤ d - 12 := by
        have split := Nat.div_add_mod (d - 12) p
        have one : 1 ≤ (d - 12) / p := (Nat.one_le_div_iff (by omega)).mpr (by omega)
        have grown : p ≤ p * ((d - 12) / p) := Nat.le_mul_of_pos_right p one
        omega
      omega

theorem doubleBack {p s i j : Nat} (pos : 0 < p) (first : s / (4 * p) - 1 = i) (second : s % p = j)
    (some : 1 ≤ s / (4 * p)) : p + (p * i + j) ≤ s := by
  have split := Nat.div_add_mod s (4 * p)
  have inner : s % p ≤ s % (4 * p) := by
    rw [← Nat.mod_mod_of_dvd s (Dvd.intro_left 4 rfl)]
    exact Nat.mod_le _ _
  have whole : p + p * i = p * (s / (4 * p)) := by
    rw [← first,Nat.mul_sub,Nat.mul_one]
    have : p ≤ p * (s / (4 * p)) := Nat.le_mul_of_pos_right p some
    omega
  have more : p * (s / (4 * p)) ≤ 4 * p * (s / (4 * p)) := Nat.mul_le_mul_right _ (by omega)
  omega

theorem placeLater {p b d : Nat} (large : 256 ≤ p) (divides : p ∣ 2^64) (past : 12 + p ≤ b) (later : b < d)
    (inside : b < 12 + p + p^2 + p^3) (same : place (4 * p) b = path 12 p d) : b + 9 * p < d := by
  have count : 4 * p / 4 = p := Nat.mul_div_cancel_left p (by decide)
  have most : p ≤ 2^64 := Nat.le_of_dvd (by decide) divides
  rw [pathPast (by omega)] at same
  simp only [place,if_neg (show ¬ b < 12 by omega),count] at same
  split_ifs at same with none short deep short short
  · injection same with first
    have := tripleFar large divides past inside first
    omega
  · injection same with first second
    have some : 1 ≤ (b - 12) / (4 * p) := by
      refine Nat.pos_of_ne_zero fun zero => none ?_
      simp [zero]
    have few : (b - 12) / (4 * p) ≤ p := by omega
    rw [predPos some (few.trans most),Nat.mod_eq_of_lt (by omega)] at first
    have back := doubleBack (by omega) first second some
    rw [Nat.div_add_mod] at back
    omega

/- The caller creates no block, writes to no table and gets no further than size. -/
structure Gentle {σ : Type} (env : Env) (st : BasicState) (node : Ext2Inode) (c : Client σ) (image : Mem)
    (T : Tables) (D : Nat → Prop) (size : Nat) : Prop where
  barren : Barren c
  closed : Closed env st node image T D
  keeps : ∀ world data block t j, D block → Kept env st image T world.disk →
    Kept env st image T (c.visit world data block t j).2.1.disk
  within : ∀ world data block t j, (c.visit world data block t j).1 ≤ size - t

inductive Reached {σ : Type} (env : Env) (st : BasicState) (node : Ext2Inode) (c : Client σ)
    (offset size : Nat) (world : World) (data : σ) : Walk σ → Prop where
  | start : Reached env st node c offset size world data (.start world data)
  | step {w after : Walk σ} : Reached env st node c offset size world data w → w.traversed < size →
      traverseStep env st node c offset w = .next () after →
      Reached env st node c offset size world data after

structure Straight {σ : Type} (env : Env) (st : BasicState) (node : Ext2Inode) (image : Mem) (T : Tables)
    (offset size : Nat) (w : Walk σ) : Prop where
  cached : Cached env st node image T w
  bound : w.traversed ≤ size
  rooted : w.traversed < size →
    RootedFrom (roots node) (place st.blockSize (blockIndex st offset w)).rank (homes node w)

def Delivers {σ : Type} (block : Option Nat) : Flow σ Nat → Prop
  | .next found _ => block = some found
  | .exit _ => block = none
  | .fault _ => False

section Traversals
variable {σ : Type} {env : Env} {st : BasicState} {node : Ext2Inode} {c : Client σ} {image : Mem}
  {T : Tables} {D : Nat → Prop} {offset size : Nat}

theorem gentleSetting (stable : env.Stable) (gentle : Gentle env st node c image T D size) :
    Setting env st node c image T D := ⟨stable,gentle.barren,gentle.closed⟩

theorem addInside {t : Nat} (fits : offset + size ≤ 2^64) (inside : t < size) : add64 t offset = t + offset :=
  Nat.mod_eq_of_lt (by omega)

theorem straightStart (world : World) (same : world.disk = image) (data : σ) :
    Straight env st node image T offset size (.start world data) :=
  ⟨startCached node world data (by rw [same]; exact keptRefl env st image T),Nat.zero_le _,
    fun _ => rootedNone _ _⟩

theorem straightVisit (gentle : Gentle env st node c image T D size) (fits : offset + size ≤ 2^64)
    (short : size < 2^64) {w found : Walk σ} (straight : Straight env st node image T offset size w)
    (more : w.traversed < size) {block : Nat} (cached : Cached env st node image T found) (same : Same w found)
    (data : D block)
    (led : Resolves (roots node) (Reads env st image) (homes node w)
      (place st.blockSize (blockIndex st offset w)) (.found block (homes node found))) :
    let visit := c.visit found.world found.data block found.traversed (blockJank st offset w)
    let after := { found with
      world := visit.2.1
      data := visit.2.2
      traversed := add64 found.traversed visit.1 }
    after.traversed = w.traversed + visit.1 ∧ Straight env st node image T offset size after := by
  intro visit after
  have within : visit.1 ≤ size - found.traversed := gentle.within _ _ _ _ _
  have moved : after.traversed = w.traversed + visit.1 := by
    rw [same.2.2] at within
    have sum : after.traversed = (found.traversed + visit.1) % 2^64 := rfl
    rw [sum,same.2.2]
    exact Nat.mod_eq_of_lt (by omega)
  refine ⟨moved,cachedVisit cached (gentle.keeps _ _ _ _ _ data cached.kept) _ _,?_,?_⟩
  · rw [moved,← same.2.2]
    rw [same.2.2] at within ⊢
    omega
  · intro still
    refine rootedMono (resolvesRooted (straight.rooted more) led) (placeRankMono ?_)
    unfold blockIndex
    rw [addInside fits more,addInside fits still,moved]
    exact Nat.div_le_div_right (by omega)

theorem straightStep (stable : env.Stable) (gentle : Gentle env st node c image T D size)
    (fits : offset + size ≤ 2^64) (short : size < 2^64) {w after : Walk σ}
    (straight : Straight env st node image T offset size w) (more : w.traversed < size)
    (step : traverseStep env st node c offset w = .next () after) :
    Straight env st node image T offset size after := by
  obtain ⟨_,block,found,run,rfl⟩ := stepNext step
  obtain ⟨cached,same,data,led⟩ := findBlockNext (gentleSetting stable gentle) straight.cached run
  exact (straightVisit gentle fits short straight more cached same data led).2

theorem reachedStraight (stable : env.Stable) {world : World} {data : σ}
    (gentle : Gentle env st node c world.disk T D size) (fits : offset + size ≤ 2^64) (short : size < 2^64)
    {w : Walk σ} (reached : Reached env st node c offset size world data w) :
    Straight env st node world.disk T offset size w := by
  induction reached with
  | start => exact straightStart world rfl data
  | step reached more step ih => exact straightStep stable gentle fits short ih more step

theorem findBlockDelivers (set : Setting env st node c image T D) (full : env.Full) (allocates : env.Allocates)
    (sized : 4 ≤ st.blockSize) {w : Walk σ} (cached : Cached env st node image T w) {index : Nat}
    (rooted : 0 < (place st.blockSize index).rank →
      RootedFrom (roots node) (place st.blockSize index).rank (homes node w)) :
    Delivers (lookup (roots node) (entryAt st image) (place st.blockSize index)) (findBlock env st node c index w) := by
  have leads : ∀ r, Resolves (roots node) (Reads env st image) (homes node w) (place st.blockSize index) r →
      lookup (roots node) (entryAt st image) (place st.blockSize index) = r.block := by
    intro r led
    have read : ∀ t i pointer, Reads env st image t i pointer → pointer = entryAt st image t i :=
      fun _ _ _ => readsExact full
    generalize place st.blockSize index = q at led rooted
    exact resolvesLookup read rooted led
  obtain meets | ⟨l,last,ended,_,spill⟩ := findBlockResolved set cached index
  · cases found : findBlock env st node c index w with
    | next block last =>
      rw [found] at meets
      exact leads _ meets.2.2.2
    | exit last =>
      rw [found] at meets
      obtain stop | poor := meets.2.2
      · exact leads _ stop
      · exact absurd allocates poor
    | fault f =>
      rw [found] at meets
      obtain poor | none := meets
      · exact absurd allocates poor
      · omega
  · rw [ended]
    exact leads _ spill

theorem findBlockCases (set : Setting env st node c image T D) (full : env.Full) (allocates : env.Allocates)
    (sized : 4 ≤ st.blockSize) {w : Walk σ} (cached : Cached env st node image T w) {index : Nat}
    (rooted : 0 < (place st.blockSize index).rank →
      RootedFrom (roots node) (place st.blockSize index).rank (homes node w)) :
    (∃ block last, lookup (roots node) (entryAt st image) (place st.blockSize index) = some block ∧
      findBlock env st node c index w = .next block last ∧ Cached env st node image T last ∧ Same w last ∧ D block ∧
      Resolves (roots node) (Reads env st image) (homes node w) (place st.blockSize index)
        (.found block (homes node last))) ∨
    ∃ last, lookup (roots node) (entryAt st image) (place st.blockSize index) = none ∧
      findBlock env st node c index w = .exit last ∧ last.data = w.data ∧ last.traversed = w.traversed := by
  have delivers := findBlockDelivers set full allocates sized cached rooted
  cases found : findBlock env st node c index w with
  | next block last =>
    rw [found] at delivers
    exact .inl ⟨block,last,delivers,rfl,findBlockNext set cached found⟩
  | exit last =>
    rw [found] at delivers
    exact .inr ⟨last,delivers,rfl,findBlockExit set cached found⟩
  | fault f =>
    rw [found] at delivers
    exact delivers.elim

/-- On a straight walk findBlock delivers what the place of the index leads to. -/
theorem straightDelivers (full : env.Full) (allocates : env.Allocates) (sized : 4 ≤ st.blockSize)
    (gentle : Gentle env st node c image T D size) {w : Walk σ}
    (straight : Straight env st node image T offset size w) (more : w.traversed < size) :
    Delivers (lookup (roots node) (entryAt st image) (place st.blockSize (blockIndex st offset w)))
      (findBlock env st node c (blockIndex st offset w) w) :=
  findBlockDelivers (gentleSetting full.stable gentle) full allocates sized straight.cached fun _ => straight.rooted more

theorem readGentle (env : Env) (st : BasicState) (node : Ext2Inode) (image : Mem) (size : Nat) :
    Gentle env st node (readClient env st size) image (fun _ t => t < 2^32) (fun b => b < 2^32) size :=
  ⟨barrenRead env st size,closedAll env st node image,fun _ _ _ _ _ _ kept => kept,
    fun _ _ _ _ _ => (Nat.min_le_left _ _).trans (Nat.min_le_right _ _)⟩

end Traversals

def imageOf (bs : Nat) (q : Path) : Mem := fun a =>
  if a % 4 = 0 then UInt8.ofNat (loneEntry q (a / bs) (a % bs / 4)) else 0

def nodeOf (q : Path) : Ext2Inode where
  typePerms := 0
  sizeLow := 0
  dbp i := UInt32.ofNat ((loneRoots q).direct i)
  sibp := UInt32.ofNat ((loneRoots q).top .single)
  dibp := UInt32.ofNat ((loneRoots q).top .double)
  tibp := UInt32.ofNat ((loneRoots q).top .triple)

theorem loneTopLe (q : Path) (l : Level) : (loneRoots q).top l ≤ 1 := by
  cases q <;> cases l <;> simp [loneRoots]

theorem rootsOf (q : Path) : roots (nodeOf q) = loneRoots q := by
  have small {n : Nat} (le : n ≤ 1) : (UInt32.ofNat n).toNat = n := by
    rw [UInt32.toNat_ofNat']
    exact Nat.mod_eq_of_lt (by omega)
  have direct : (nodeOf q).direct = (loneRoots q).direct := by
    funext i
    refine small ?_
    simp only [loneRoots]
    split <;> decide
  have top : (nodeOf q).top = (loneRoots q).top := by
    funext l
    cases l <;> exact small (loneTopLe q _)
  simp only [roots,direct,top]

theorem entryOfImage {st : BasicState} {p : Nat} (sized : st.blockSize = 4 * p) (large : st.blockSize ≤ 2^32)
    (q : Path) {t i : Nat} (small : t ≤ 4) (inside : i < p) :
    entryAt st (imageOf st.blockSize q) t i = loneEntry q t i := by
  have base : addr st t = t * st.blockSize := blockAddr large (by omega)
  have block : (t * st.blockSize + 4 * i) / st.blockSize = t := by
    rw [Nat.mul_comm t,Nat.mul_add_div (by omega),Nat.div_eq_of_lt (by omega),Nat.add_zero]
  have index : (t * st.blockSize + 4 * i) % st.blockSize / 4 = i := by
    rw [Nat.mul_comm t,Nat.mul_add_mod,Nat.mod_eq_of_lt (by omega),Nat.mul_div_cancel_left i (by decide)]
  have aligned : (t * st.blockSize + 4 * i) % 4 = 0 := by
    rw [sized,show t * (4 * p) + 4 * i = 4 * (t * p + i) by ring,Nat.mul_mod_right]
  have first : (imageOf st.blockSize q (t * st.blockSize + 4 * i)).toNat = loneEntry q t i := by
    rw [imageOf,if_pos aligned,block,index,UInt8.toNat_ofNat']
    exact Nat.mod_eq_of_lt (by have := loneEntryLe q t i; omega)
  have zero (j : Nat) (low : 1 ≤ j) (high : j < 4) : imageOf st.blockSize q (t * st.blockSize + 4 * i + j) = 0 :=
    if_neg (by omega)
  rw [entryAt,base,le32,le16,le16,first,zero 1 (by decide) (by decide),zero 2 (by decide) (by decide),
    Nat.add_assoc _ 2 1,zero 3 (by decide) (by decide)]
  rfl

theorem lookupOfImage (st : BasicState) {p : Nat} (sized : st.blockSize = 4 * p) (large : st.blockSize ≤ 2^32)
    (q : Path) {r : Path} (within : r.Within 12 p) :
    lookup (roots (nodeOf q)) (entryAt st (imageOf st.blockSize q)) r = lookup (loneRoots q) (loneEntry q) r := by
  rw [rootsOf]
  exact lookupCongr (m := 4) (fun l => (loneTopLe q l).trans (by decide)) (loneEntryLe q)
    (fun t i small inside => entryOfImage sized large q small inside) within

/-- For index b of a filesystem with blocks of bs bytes, findBlock hands out the block that
the layout designates, and leaves exactly when a pointer on the way to it is zero: with
full transfers and enough memory, in any traversal of a range of the file. -/
def HandsLayout (bs b : Nat) : Prop :=
  ∀ (σ : Type) (env : Env) (st : BasicState) (node : Ext2Inode) (c : Client σ) (T : Tables) (D : Nat → Prop)
    (offset size : Nat) (world : World) (data : σ) (w : Walk σ), env.Full → env.Allocates →
    st.blockSize = bs → Gentle env st node c world.disk T D size → offset + size ≤ 2^64 → size < 2^64 →
    Reached env st node c offset size world data w → w.traversed < size → blockIndex st offset w = b →
    Delivers (lookup (roots node) (entryAt st world.disk) (path 12 (bs / 4) b)) (findBlock env st node c b w)

theorem handsLayoutPlace {bs b : Nat} (sized : 4 ≤ bs) (same : place bs b = path 12 (bs / 4) b) :
    HandsLayout bs b := by
  intro σ env st node c T D offset size world data w full allocates here gentle fits short reached more index
  have straight := reachedStraight full.stable gentle fits short reached
  have delivers := straightDelivers full allocates (here ▸ sized) gentle straight more
  rw [index,here,same] at delivers
  exact delivers

theorem handsLayoutOnly {bs b : Nat} (sized : 4 ≤ bs) (aligned : bs = 4 * (bs / 4)) (large : bs ≤ 2^32)
    (fits : b * bs < 2^64) (inside : b < 12 + bs / 4 + (bs / 4)^2 + (bs / 4)^3) (hands : HandsLayout bs b) :
    place bs b = path 12 (bs / 4) b := by
  by_contra apart
  let env : Env := ⟨fun _ _ n => n,fun _ => some zeros⟩
  let st : BasicState := ⟨none,0,bs,0⟩
  let node := nodeOf (path 12 (bs / 4) b)
  let world : World := ⟨imageOf bs (path 12 (bs / 4) b),0,0,0⟩
  let start : Walk Mem := .start world zeros
  have full : env.Full := fun _ _ _ => le_rfl
  have gentle := readGentle env st node world.disk 1
  have index : blockIndex st (b * bs) start = b := by
    have sum : add64 0 (b * bs) = b * bs := by
      rw [add64,Nat.zero_add]
      exact Nat.mod_eq_of_lt fits
    change add64 0 (b * bs) / bs = b
    rw [sum,Nat.mul_div_cancel b (by omega)]
  have given := hands Mem env st node (readClient env st 1) _ _ (b * bs) 1 world zeros start full
    (fun _ => rfl) rfl gentle (by omega) (by decide) .start Nat.zero_lt_one index
  have straight : Straight env st node world.disk (fun _ t => t < 2^32) (b * bs) 1 start :=
    straightStart world rfl zeros
  have found := straightDelivers full (fun _ => rfl) sized gentle straight Nat.zero_lt_one
  rw [index] at found
  have lookupPath := lookupOfImage st aligned large (path 12 (bs / 4) b) (pathWithin inside)
  have lookupPlace := lookupOfImage st aligned large (path 12 (bs / 4) b)
    (placeWithin bs b (by omega))
  have some := loneFound (path 12 (bs / 4) b)
  rw [← lookupPath] at some
  rw [loneOther apart] at lookupPlace
  cases run : findBlock env st node (readClient env st 1) b start with
  | next block last =>
    rw [run] at found
    cases lookupPlace.symm.trans found
  | exit last =>
    rw [run] at given
    have none : lookup (roots node) (entryAt st world.disk) (path 12 (bs / 4) b) = none := given
    rw [none] at some
    cases some
  | fault f =>
    rw [run] at given
    exact given

/-- The layout is met exactly up to the singly indirect blocks, or where the block begins
beyond every 64-bit offset. -/
theorem handsLayoutIff {bs b : Nat} (power : ∃ k, bs = 1024 * 2^k)
    (inside : b < 12 + bs / 4 + (bs / 4)^2 + (bs / 4)^3) :
    HandsLayout bs b ↔ b < 12 + bs / 4 ∨ 2^64 ≤ b * bs := by
  obtain ⟨k,rfl⟩ := power
  have whole : 1024 * 2^k = 2^(10 + k) := by rw [Nat.pow_add]
  have count : 1024 * 2^k / 4 = 2^(8 + k) := by rw [Nat.pow_add]; omega
  have aligned : 1024 * 2^k = 4 * (1024 * 2^k / 4) := by omega
  have pos : 0 < 2^k := Nat.two_pow_pos k
  constructor
  · intro hands
    by_contra neither
    obtain ⟨past,fits⟩ := not_or.mp neither
    have few : k ≤ 22 := by
      have area : 2^(8 + k) * 2^(10 + k) < 2^64 := by
        calc 2^(8 + k) * 2^(10 + k) = 1024 * 2^k / 4 * (1024 * 2^k) := by rw [count,whole]
          _ ≤ b * (1024 * 2^k) := Nat.mul_le_mul_right _ (by omega)
          _ < 2^64 := by omega
      rw [← Nat.pow_add] at area
      have := (Nat.pow_lt_pow_iff_right (by decide : 1 < 2)).mp area
      omega
    have large : 1024 * 2^k ≤ 2^32 := by
      rw [whole]
      exact Nat.pow_le_pow_right (by decide) (by omega)
    have divides : 1024 * 2^k / 4 ∣ 2^64 := by
      rw [count]
      exact Nat.pow_dvd_pow 2 (by omega)
    have same := handsLayoutOnly (by omega) aligned large (by omega) inside hands
    have iff := placeIff (b := b) (by omega) divides inside
    rw [← aligned] at iff
    exact past (iff.mp same)
  · rintro (low | far)
    · refine handsLayoutPlace (by omega) ?_
      have same := placeIsPath low
      rwa [← aligned] at same
    · intro σ env st node c T D offset size world data w full allocates here gentle fits short reached more index
      have below : add64 w.traversed offset < 2^64 := Nat.mod_lt _ (by decide)
      have reach : b * st.blockSize ≤ add64 w.traversed offset := by
        rw [← index]
        exact Nat.div_mul_le_self _ _
      rw [here] at reach
      omega

theorem handsLayoutLastSingle : HandsLayout 1024 267 :=
  (handsLayoutIff ⟨0,rfl⟩ (by decide)).mpr (.inl (by decide))

theorem firstDoubleMisplaced : ¬ ∀ bs b, (∃ k, bs = 1024 * 2^k) →
    b < 12 + bs / 4 + (bs / 4)^2 + (bs / 4)^3 → HandsLayout bs b := by
  intro hands
  have same := handsLayoutOnly (b := 268) (by decide) (by decide) (by decide) (by decide) (by decide)
    (hands 1024 268 ⟨0,rfl⟩ (by decide))
  revert same
  decide

end Kdrivers.Ext2Layout
