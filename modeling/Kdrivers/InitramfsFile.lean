import Kdrivers.Initramfs

/-! Files of the initramfs image (initramfs/file.c): reads that copy byte by byte, and the
size that both drivers report. -/
namespace Kdrivers.InitramfsFile
open Bytes CString Initramfs

def copyLoop (data : Mem) (fileSize offset : Nat) : Nat → Mem → Mem
  | 0,buffer => buffer
  | i+1,buffer =>
    let value := if add64 i offset < fileSize then data (offset + i) else 0
    Function.update (copyLoop data fileSize offset i buffer) i value

-- the state's base is the file's header
def initramfsRead (base : Option Mem) (buffer : Mem) (size count offset : Nat) : Nat × Mem := match base with
  | none => (0,buffer)
  | some addfiles =>
    let header := HeaderCpio.ofBytes addfiles
    let data := view addfiles (dataOffset header)
    (mul64 size count,copyLoop data (toSize (dataSize header)) offset (mul64 size count) buffer)

def initramfsStat (base : Option Mem) (stat : Stat) : Int × Stat := match base with
  | none => (2,stat)
  | some addfiles => (0,.ofHeader (.ofBytes addfiles))

def readAll (base : Option Mem) : Nat → List (Mem × Nat × Nat) → List UInt8
  | _,[] => []
  | offset,(buffer,size,count)::rest =>
    let (n,out) := initramfsRead base buffer size count offset
    (List.range n).map out ++ readAll base (offset + n) rest

def requested (calls : List (Mem × Nat × Nat)) : Nat := (calls.map fun (_,size,count) => size * count).sum

structure RoundTrip (e : Entry) (base : Mem) : Prop where
  fileSize : ∀ stat, (initramfsStat (some base) stat).2.size = e.content.length
  superSize : ∀ fs offset, view fs offset = base → ∀ filename fuel,
    initramfsFindFile (some fs) (some filename) fuel = .ret (some offset) →
      ∀ stat, ∃ found, Initramfs.initramfsStat (some fs) (some filename) fuel stat = .ret (0,found) ∧
        found.size = e.content.length
  delivers : ∀ stat calls, (requested calls : Int) = (initramfsStat (some base) stat).2.size →
    readAll (some base) 0 calls = e.content
  beyond : ∀ buffer size count offset, offset + size * count < 2^64 → ∀ k < size * count,
    e.content.length ≤ offset + k → (initramfsRead (some base) buffer size count offset).2 k = 0

theorem copyLoopAt (data : Mem) (fileSize offset n : Nat) (buffer : Mem) (k : Nat) :
    copyLoop data fileSize offset n buffer k =
      if k < n then if add64 k offset < fileSize then data (offset + k) else 0 else buffer k := by
  induction n with
  | zero => rfl
  | succ n ih =>
    rw [copyLoop]
    by_cases last : k = n
    · subst last
      rw [Function.update_self,if_pos (Nat.lt_succ_self k)]
    · rw [Function.update_of_ne last,ih]
      exact if_congr (by omega) rfl rfl

theorem sizeIff {e : Entry} {m : Mem} (held : e.Held m) :
    (dataSize (.ofBytes m)).toInt = e.content.length ↔ e.content.length % 2 = 0 ∧ e.content.length < 2^31 := by
  have sized := e.sized
  have size := dataSizeEq held
  unfold even at size
  rw [BitVec.toInt_eq_toNat_cond]
  constructor
  · intro same
    split at same <;> omega
  · rintro ⟨whole,low⟩
    rw [if_pos (by omega)]
    omega

theorem rangeText (bytes : List UInt8) : ((List.range bytes.length).map fun k => text bytes (0 + k)) = bytes := by
  refine List.ext_getElem (by simp) fun i inside low => ?_
  rw [List.getElem_map,List.getElem_range,Nat.zero_add,textInside low]

section
variable {e : Entry} {base : Mem} (held : e.Held base)
include held

theorem fileSizeEq (whole : e.content.length % 2 = 0) (low : e.content.length < 2^31) :
    toSize (dataSize (.ofBytes base)) = e.content.length := by
  have size := dataSizeEq held
  unfold even at size
  rw [toSizeEq (by omega)]
  omega

theorem readByte (whole : e.content.length % 2 = 0) (low : e.content.length < 2^31) (buffer : Mem)
    {size count offset : Nat} (fits : offset + size * count < 2^64) {k : Nat} (inside : k < size * count) :
    (initramfsRead (some base) buffer size count offset).2 k = text e.content (offset + k) := by
  have sum : add64 k offset = offset + k := by rw [add64Eq (by omega),Nat.add_comm]
  have short : size * count < 2^64 := by omega
  rw [initramfsRead]
  simp only [fileSizeEq held whole low,copyLoopAt,mul64Eq short,if_pos inside,sum,dataOffsetEq held,viewApply]
  by_cases here : offset + k < e.content.length
  · rw [if_pos here]
    exact held.content _ here
  · rw [if_neg here,textPast (Nat.le_of_not_lt here)]

theorem readAllDelivers (whole : e.content.length % 2 = 0) (low : e.content.length < 2^31) {offset : Nat}
    {calls : List (Mem × Nat × Nat)} (inside : offset + requested calls < 2^64) :
    readAll (some base) offset calls = (List.range (requested calls)).map fun k => text e.content (offset + k) := by
  induction calls generalizing offset with
  | nil => rfl
  | cons call rest ih =>
    obtain ⟨buffer,size,count⟩ := call
    have sum : requested ((buffer,size,count)::rest) = size * count + requested rest := List.sum_cons
    rw [sum] at inside ⊢
    have short : size * count < 2^64 := by omega
    have moved : (initramfsRead (some base) buffer size count offset).1 = size * count := mul64Eq short
    have bytes : (List.range (size * count)).map (initramfsRead (some base) buffer size count offset).2 =
        (List.range (size * count)).map fun k => text e.content (offset + k) :=
      List.map_congr_left fun k mem => readByte held whole low buffer (by omega) (List.mem_range.mp mem)
    rw [readAll]
    simp only [moved]
    rw [bytes,ih (by omega),List.range_add,List.map_append,List.map_map]
    congr 1
    refine List.map_congr_left fun k _ => ?_
    exact congrArg (text e.content) (Nat.add_assoc _ _ _)

/-- An entry goes round through both drivers just if its length is even and below 2 GiB. -/
theorem roundTripIff : RoundTrip e base ↔ e.content.length % 2 = 0 ∧ e.content.length < 2^31 := by
  constructor
  · intro trip
    exact (sizeIff held).mp (trip.fileSize ⟨0,0,0,0,0,0,0,0,0,0⟩)
  · rintro ⟨whole,low⟩
    have size := (sizeIff held).mpr ⟨whole,low⟩
    refine ⟨fun _ => size,?_,?_,?_⟩
    · rintro fs offset rfl filename fuel found stat
      refine ⟨.ofHeader (headerAt fs offset),?_,size⟩
      rw [Initramfs.initramfsStat,found,Outcome.retBind]
    · intro stat calls split
      have asked : requested calls = e.content.length := Int.ofNat_inj.mp (split.trans size)
      rw [readAllDelivers held whole low (by omega),asked]
      exact rangeText e.content
    · intro buffer size count offset fits k inside past
      rw [readByte held whole low buffer fits inside,textPast past]

end

theorem wordHeld : wordFile.Held (text wordBytes) := ⟨by decide,by decide,by decide,by decide,by decide⟩

theorem wordTrip : RoundTrip wordFile (text wordBytes) ∧
    readAll (some (text wordBytes)) 0 [(zeros,1,1),(zeros,1,3)] = [97,98,99,100] ∧
    (initramfsRead (some (text wordBytes)) zeros 2 1 3).2 1 = 0 := by
  have trip : RoundTrip wordFile (text wordBytes) := (roundTripIff wordHeld).mpr ⟨by decide,by decide⟩
  exact ⟨trip,trip.delivers ⟨0,0,0,0,0,0,0,0,0,0⟩ _ (by decide),trip.beyond zeros 2 1 3 (by decide) 1 (by decide) (by decide)⟩

def oddFile : Entry := xFile [97] (by decide)
def oddBytes : List UInt8 :=
  [0xC7,0x71,0,0,0,0,0,0,0,0,0,0,0,0,0,0,0,0,0,0,2,0,0,0,1,0,120,0,97]

theorem oddHeld : oddFile.Held (text oddBytes) := ⟨by decide,by decide,by decide,by decide,by decide⟩

theorem oddPadded : ¬ ∀ (e : Entry) (base : Mem), e.Held base → RoundTrip e base := by
  intro all
  have size := (sizeIff oddHeld).mp ((all oddFile (text oddBytes) oddHeld).fileSize ⟨0,0,0,0,0,0,0,0,0,0⟩)
  exact absurd size.1 (by decide)

end Kdrivers.InitramfsFile
