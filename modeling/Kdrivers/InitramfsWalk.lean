import Kdrivers.Initramfs

/-! The walk over the headers of an initramfs image (initramfs/super.c), well formed or not: how
far one turn of the loop moves, and whether the turns come to an end. -/
namespace Kdrivers.InitramfsWalk
open Bytes CString Initramfs

/- Memory with an image of some length, past which no header starts. -/
structure Image where
  fs : Mem
  length : Nat
  fits : length < 2^63
  ends : ∀ pos, length ≤ pos → (headerAt fs pos).magic ≠ cpioMagic

def next (fs : Mem) (offset : Nat) : Nat :=
  add64 offset (add64 (dataOffset (headerAt fs offset)) (toSize (dataSize (headerAt fs offset))))

def Passes (fs : Mem) (filename : List UInt8) (offset : Nat) : Prop :=
  (headerAt fs offset).magic = cpioMagic ∧
  strncmp filename.length (view fs (offset + nameOffset)) (text filename) ≠ 0
instance (fs filename offset) : Decidable (Passes fs filename offset) := by unfold Passes; infer_instance

inductive Visited (fs : Mem) (filename : List UInt8) : Nat → Prop where
  | start : Visited fs filename 0
  | step {offset : Nat} (before : Visited fs filename offset) (passes : Passes fs filename offset) :
      Visited fs filename (next fs offset)

def filesize (h : HeaderCpio) : Nat := h.filesizeHigh * 2^16 + h.filesizeLow

def extentOf (h : HeaderCpio) : Nat := nameOffset + even h.namesize + even (filesize h)

inductive Chain (fs : Mem) (filename : List UInt8) : Nat → Prop where
  | start : Chain fs filename 0
  | step {offset : Nat} (before : Chain fs filename offset) (passes : Passes fs filename offset) :
      Chain fs filename (offset + extentOf (headerAt fs offset))

structure Walks (image : Image) (filename : Name) : Prop where
  forward : ∀ offset, Visited image.fs (dropSlash filename.bytes) offset → Passes image.fs (dropSlash filename.bytes) offset →
    offset < next image.fs offset ∧ next image.fs offset = offset + extentOf (headerAt image.fs offset)
  visits : ∀ before e after, Archive image.fs 0 (before ++ e::after) → (∀ f ∈ before, begins filename f = false) →
    Visited image.fs (dropSlash filename.bytes) (total before)
  ends : ∀ fuel > image.length, ∃ r, initramfsFindFile (some image.fs) (some filename) fuel = .ret r

/- Every file that is passed is below 2 GiB, by two bytes. -/
def Small (image : Image) (filename : Name) : Prop :=
  ∀ offset, Chain image.fs (dropSlash filename.bytes) offset → Passes image.fs (dropSlash filename.bytes) offset →
    filesize (headerAt image.fs offset) + 1 < 2^31

theorem loopStep (fs : Mem) (filename : List UInt8) (fuel offset : Nat) : findLoop fs filename (fuel + 1) offset =
    if Passes fs filename offset then findLoop fs filename fuel (next fs offset)
    else .ret (if (headerAt fs offset).magic = cpioMagic then some offset else none) := by
  have turn : findLoop fs filename (fuel + 1) offset = if (headerAt fs offset).magic ≠ cpioMagic then .ret none
      else if strncmp filename.length (view fs (offset + nameOffset)) (text filename) = 0 then .ret (some offset)
      else findLoop fs filename fuel (next fs offset) := rfl
  rw [turn]
  by_cases magic : (headerAt fs offset).magic = cpioMagic
  · by_cases same : strncmp filename.length (view fs (offset + nameOffset)) (text filename) = 0
    · rw [if_neg (not_not.mpr magic),if_pos same,if_neg fun passes => passes.2 same,if_pos magic]
    · rw [if_neg (not_not.mpr magic),if_neg same,if_pos ⟨magic,same⟩]
  · rw [if_pos magic,if_neg fun passes => magic passes.1,if_neg magic]

theorem toSizeHigh {v : BitVec 32} (high : 2^31 ≤ v.toNat) : toSize v = v.toNat + (2^64 - 2^32) := by
  have sign : v.msb = true := BitVec.msb_eq_true_iff_two_mul_ge.mpr (by omega)
  have width := v.isLt
  rw [toSize,BitVec.toNat_signExtend,BitVec.toNat_setWidth,sign,Nat.mod_eq_of_lt (by omega)]
  rfl

theorem nextExact (fs : Mem) {offset : Nat} (low : offset < 2^63) :
    next fs offset = offset + extentOf (headerAt fs offset) ↔ filesize (headerAt fs offset) + 1 < 2^31 := by
  have name : (headerAt fs offset).namesize < 2^16 := le16Lt (view fs offset) 20
  have upper : (headerAt fs offset).filesizeHigh < 2^16 := le16Lt (view fs offset) 22
  have lower : (headerAt fs offset).filesizeLow < 2^16 := le16Lt (view fs offset) 24
  have size : (dataSize (headerAt fs offset)).toNat = even (filesize (headerAt fs offset)) % 2^32 :=
    dataSizeNat (view fs offset)
  have file : filesize (headerAt fs offset) < 2^32 := by
    unfold filesize
    omega
  have name_ : dataOffset (headerAt fs offset) = nameOffset + even (headerAt fs offset).namesize := rfl
  have whole : extentOf (headerAt fs offset) = dataOffset (headerAt fs offset) + even (filesize (headerAt fs offset)) := by
    rw [extentOf,name_]
  have offsetLow : dataOffset (headerAt fs offset) < 2^17 := by
    rw [name_]
    unfold even nameOffset
    omega
  have round : even (filesize (headerAt fs offset)) ≤ 2^32 := by
    unfold even
    omega
  have small : even (filesize (headerAt fs offset)) < 2^31 ↔ filesize (headerAt fs offset) + 1 < 2^31 := by
    unfold even
    omega
  rw [next,whole,← small]
  generalize dataOffset (headerAt fs offset) = d at *
  generalize even (filesize (headerAt fs offset)) = f at *
  unfold add64
  by_cases high : 2^31 ≤ (dataSize (headerAt fs offset)).toNat
  · rw [toSizeHigh high,size]
    omega
  · rw [toSizeEq (Nat.lt_of_not_le high),size]
    omega

section
variable {image : Image} {filename : Name}

theorem passesInside {offset : Nat} (passes : Passes image.fs (dropSlash filename.bytes) offset) :
    offset < image.length := by
  by_contra past
  exact image.ends offset (Nat.le_of_not_lt past) passes.1

theorem passesExact {offset : Nat} (passes : Passes image.fs (dropSlash filename.bytes) offset) :
    next image.fs offset = offset + extentOf (headerAt image.fs offset) ↔
      filesize (headerAt image.fs offset) + 1 < 2^31 :=
  nextExact image.fs (Nat.lt_trans (passesInside passes) image.fits)

theorem visitedChain (small : Small image filename) {offset : Nat}
    (visited : Visited image.fs (dropSlash filename.bytes) offset) : Chain image.fs (dropSlash filename.bytes) offset := by
  induction visited with
  | start => exact .start
  | @step offset before passes ih =>
    rw [(passesExact passes).mpr (small offset ih passes)]
    exact .step ih passes

theorem chainVisited (forward : ∀ offset, Visited image.fs (dropSlash filename.bytes) offset →
      Passes image.fs (dropSlash filename.bytes) offset → next image.fs offset = offset + extentOf (headerAt image.fs offset))
    {offset : Nat} (chain : Chain image.fs (dropSlash filename.bytes) offset) :
    Visited image.fs (dropSlash filename.bytes) offset := by
  induction chain with
  | start => exact .start
  | @step offset before passes ih =>
    rw [← forward offset ih passes]
    exact .step ih passes

theorem extentSome (h : HeaderCpio) : 26 ≤ extentOf h := by
  unfold extentOf nameOffset
  omega

theorem chainEnds (small : Small image filename) {fuel offset : Nat}
    (chain : Chain image.fs (dropSlash filename.bytes) offset) (enough : image.length < offset + fuel) (pos : 0 < fuel) :
    ∃ r, findLoop image.fs (dropSlash filename.bytes) fuel offset = .ret r := by
  induction fuel generalizing offset with
  | zero => omega
  | succ fuel ih =>
    rw [loopStep]
    by_cases passes : Passes image.fs (dropSlash filename.bytes) offset
    · have inside := passesInside passes
      have some := extentSome (headerAt image.fs offset)
      rw [if_pos passes,(passesExact passes).mpr (small offset chain passes)]
      exact ih (.step chain passes) (by omega) (by omega)
    · exact ⟨_,if_neg passes⟩

theorem heldExtent {fs : Mem} {pos : Nat} {e : Entry} (held : e.Held (view fs pos)) :
    extentOf (headerAt fs pos) = e.extent := by
  have name : (headerAt fs pos).namesize = e.name.bytes.length + 1 := held.namesize
  have file : filesize (headerAt fs pos) = e.content.length := held.filesize
  rw [extentOf,name,file]
  rfl

theorem chainArchive {fs : Mem} {pos : Nat} {before : List Entry} {e : Entry} {after : List Entry}
    (archive : Archive fs pos (before ++ e::after)) (others : ∀ f ∈ before, begins filename f = false)
    (chain : Chain fs (dropSlash filename.bytes) pos) : Chain fs (dropSlash filename.bytes) (pos + total before) := by
  induction before generalizing pos with
  | nil => exact chain
  | cons f before ih =>
    cases archive with
    | entry held tail =>
      have differ := others f List.mem_cons_self
      have passes : Passes fs (dropSlash filename.bytes) pos := by
        refine ⟨held.magic,fun same => ?_⟩
        have starts := List.isPrefixOf_iff_prefix.mpr ((heldCompare held filename).mp same)
        rw [begins,starts] at differ
        cases differ
      have next := ih tail (fun g mem => others g (List.mem_cons_of_mem f mem)) (heldExtent held ▸ .step chain passes)
      have sum : total (f::before) = f.extent + total before := List.sum_cons
      rw [sum,← Nat.add_assoc]
      exact next

end

/-- The walk goes forward entry by entry and comes to an end exactly when every file on its
way, as the headers are to follow each other, is below 2 GiB by two bytes. -/
theorem walksIff (image : Image) (filename : Name) : Walks image filename ↔ Small image filename := by
  constructor
  · intro walks offset chain passes
    have visited := chainVisited (fun offset visited passes => (walks.forward offset visited passes).2) chain
    exact (passesExact passes).mp (walks.forward offset visited passes).2
  · intro small
    refine ⟨fun offset visited passes => ?_,fun before e after archive others => ?_,fun fuel enough => ?_⟩
    · have exact_ := (passesExact passes).mpr (small offset (visitedChain small visited) passes)
      have some := extentSome (headerAt image.fs offset)
      exact ⟨by omega,exact_⟩
    · have chain := chainArchive archive others .start
      rw [Nat.zero_add] at chain
      refine chainVisited (fun offset visited passes => ?_) chain
      exact (passesExact passes).mpr (small offset (visitedChain small visited) passes)
    · exact chainEnds small .start (by omega) (by omega)

def stuckBytes : List UInt8 :=
  [0xC7,0x71,0,0,0,0,0,0,0,0,0,0,0,0,0,0,0,0,0,0,0,0,0xFF,0xFF,0xE6,0xFF]

theorem stuckForever (fuel : Nat) : findLoop (text stuckBytes) [97] fuel 0 = .running := by
  induction fuel with
  | zero => rfl
  | succ fuel ih =>
    have stays : next (text stuckBytes) 0 = 0 := by decide
    rw [loopStep,if_pos (by decide),stays]
    exact ih

def stuckImage : Image where
  fs := text stuckBytes
  length := 26
  fits := by decide
  ends := by
    intro pos past magic
    have zero : (headerAt (text stuckBytes) pos).magic = 0 := by
      have first : text stuckBytes pos = 0 := textPast past
      have second : text stuckBytes (pos + 1) = 0 := textPast (Nat.le_succ_of_le past)
      change (text stuckBytes pos).toNat + 256 * (text stuckBytes (pos + 1)).toNat = 0
      rw [first,second]
      rfl
    rw [zero] at magic
    cases magic

theorem stuckNotWalked : ¬ ∀ image filename, Walks image filename := by
  intro all
  obtain ⟨r,ends⟩ := (all stuckImage ⟨[97],by simp⟩).ends 27 (by decide)
  have never := stuckForever 27
  exact absurd (ends.symm.trans never) (fun same => nomatch same)

end Kdrivers.InitramfsWalk
