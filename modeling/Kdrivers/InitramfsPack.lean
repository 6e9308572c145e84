import Mathlib.Data.List.GetD
import Kdrivers.InitramfsFile

/-! An image packed from a list of files in the old CPIO format, and the two drivers on it
(initramfs/super.c, initramfs/file.c): a map from names to contents. -/
namespace Kdrivers.InitramfsPack
open Bytes CString Initramfs InitramfsFile

def halfWord (n : Nat) : List UInt8 := [UInt8.ofNat n,UInt8.ofNat (n / 256)]

-- the halves of the size are the high one first
def headerBytes (e : Entry) : List UInt8 :=
  halfWord cpioMagic ++ List.replicate 18 0 ++ halfWord (e.name.bytes.length + 1) ++
    halfWord (e.content.length / 2^16) ++ halfWord (e.content.length % 2^16)

def padded (bytes : List UInt8) : List UInt8 := bytes ++ List.replicate (bytes.length % 2) 0

def packed (e : Entry) : List UInt8 := headerBytes e ++ (padded (e.name.bytes ++ [0]) ++ padded e.content)
def pack (entries : List Entry) : List UInt8 := entries.flatMap packed

/- What the drivers are to say of a filename with this content, or with none: the super driver
of the name, the file driver of the file, whose reads in a row may start anywhere. -/
def Serves (fs : Mem) (filename : Name) : Option (List UInt8) → Prop
  | none => ∃ enough, ∀ fuel ≥ enough, initramfsLocate (some fs) (some filename) fuel = .ret none ∧
      ∀ stat, Initramfs.initramfsStat (some fs) (some filename) fuel stat = .ret (1,stat)
  | some content => ∃ offset,
      (∃ enough, ∀ fuel ≥ enough, initramfsLocate (some fs) (some filename) fuel = .ret (some offset) ∧
        ∀ stat, ∃ found, Initramfs.initramfsStat (some fs) (some filename) fuel stat = .ret (0,found) ∧
          found.size = content.length) ∧
      (∀ stat, (InitramfsFile.initramfsStat (some (view fs offset)) stat).2.size = content.length) ∧
      ∀ position calls, position + requested calls < 2^64 → readAll (some (view fs offset)) position calls =
        (List.range (requested calls)).map fun k => text content (position + k)

theorem textLeft {a b : List UInt8} {i : Nat} (inside : i < a.length) : text (a ++ b) i = text a i :=
  List.getD_append _ _ _ _ inside

theorem textRight (a b : List UInt8) (i : Nat) : text (a ++ b) (a.length + i) = text b i := by
  rw [text,List.getD_append_right _ _ _ _ (Nat.le_add_right _ _),Nat.add_sub_cancel_left]
  rfl

theorem paddedLength (bytes : List UInt8) : (padded bytes).length = even bytes.length := by
  rw [padded,List.length_append,List.length_replicate]
  rfl

theorem packedLength (e : Entry) : (packed e).length = e.extent := by
  rw [packed,List.length_append,List.length_append,paddedLength,paddedLength,List.length_append,List.length_singleton,
    ← Nat.add_assoc]
  rfl

theorem halfRead {m : Mem} {pos n : Nat} (small : n < 2^16) (low : m pos = UInt8.ofNat n)
    (high : m (pos + 1) = UInt8.ofNat (n / 256)) : le16 m pos = n := by
  rw [le16,low,high,UInt8.toNat_ofNat',UInt8.toNat_ofNat']
  omega

section Held
variable {e : Entry} {m : Mem} (holds : ∀ i < e.extent, m i = text (packed e) i)
include holds

theorem packedHeader {i : Nat} (inside : i < 26) : m i = text (packed e) i :=
  holds i (by unfold Entry.extent Entry.start nameOffset; omega)

theorem packedName {i : Nat} (inside : i ≤ e.name.bytes.length) : m (nameOffset + i) = text e.name.bytes i := by
  have size : (e.name.bytes ++ [0]).length = e.name.bytes.length + 1 := List.length_append
  have below : i < (padded (e.name.bytes ++ [0])).length := by
    rw [paddedLength,size,even]
    omega
  have within : nameOffset + i < e.extent := by
    rw [paddedLength,size] at below
    unfold Entry.extent Entry.start
    omega
  rw [holds _ within]
  calc text (packed e) (nameOffset + i)
      = text (padded (e.name.bytes ++ [0]) ++ padded e.content) i := textRight (headerBytes e) _ i
    _ = text (e.name.bytes ++ [0]) i := by rw [textLeft below,padded,textLeft (by omega)]
    _ = text e.name.bytes i := by
      obtain low | rfl := Nat.lt_or_eq_of_le inside
      · exact textLeft low
      · exact (textRight e.name.bytes [0] 0).trans (textPast (Nat.le_refl _)).symm

theorem packedContent {i : Nat} (inside : i < e.content.length) : m (e.start + i) = text e.content i := by
  have size : (e.name.bytes ++ [0]).length = e.name.bytes.length + 1 := List.length_append
  have within : e.start + i < e.extent := by
    unfold Entry.extent even
    omega
  have place : e.start + i = nameOffset + ((padded (e.name.bytes ++ [0])).length + i) := by
    rw [paddedLength,size,← Nat.add_assoc]
    rfl
  rw [holds _ within,place]
  calc text (packed e) (nameOffset + ((padded (e.name.bytes ++ [0])).length + i))
      = text (padded (e.name.bytes ++ [0]) ++ padded e.content) ((padded (e.name.bytes ++ [0])).length + i) :=
        textRight (headerBytes e) _ _
    _ = text (padded e.content) i := textRight _ _ i
    _ = text e.content i := by rw [padded,textLeft inside]

theorem packedHeld : e.Held m := by
  have short := e.short
  have sized := e.sized
  have low (i : Nat) (inside : i < 26) : m i = text (packed e) i := packedHeader holds inside
  refine ⟨?_,?_,?_,fun i inside => packedName holds inside,fun i inside => packedContent holds inside⟩
  · exact halfRead (by decide) (low 0 (by decide)) (low 1 (by decide))
  · exact halfRead short (low 20 (by decide)) (low 21 (by decide))
  · have high : (HeaderCpio.ofBytes m).filesizeHigh = e.content.length / 2^16 :=
      halfRead (by omega) (low 22 (by decide)) (low 23 (by decide))
    have rest : (HeaderCpio.ofBytes m).filesizeLow = e.content.length % 2^16 :=
      halfRead (by omega) (low 24 (by decide)) (low 25 (by decide))
    rw [high,rest]
    omega

end Held

theorem packArchive {fs : Mem} {pos : Nat} {entries : List Entry} (holds : ∀ i, fs (pos + i) = text (pack entries) i) :
    Archive fs pos entries := by
  induction entries generalizing pos with
  | nil =>
    have zero (i : Nat) : fs (pos + i) = 0 := (holds i).trans (textPast (Nat.zero_le i))
    refine .done ?_
    change le16 (view fs pos) 0 ≠ cpioMagic
    simp only [le16,viewApply,zero]
    decide
  | cons e rest ih =>
    refine .entry (packedHeld fun i inside => ?_) (ih fun i => ?_)
    · rw [viewApply,holds]
      exact textLeft (by rwa [packedLength])
    · rw [Nat.add_assoc,holds,← packedLength]
      exact textRight (packed e) (pack rest) i

theorem firstHeld {fs : Mem} {p : Entry → Bool} {pos offset : Nat} {entries : List Entry} (archive : Archive fs pos entries)
    (found : firstAt p pos entries = some offset) : ∃ e, entries.find? p = some e ∧ e.Held (view fs offset) := by
  induction archive with
  | done => cases found
  | @entry pos e rest held _ ih =>
    rw [firstAt] at found
    rw [List.find?_cons]
    by_cases here : p e = true
    · rw [if_pos here] at found
      cases found
      exact ⟨e,by rw [here],held⟩
    · rw [if_neg here] at found
      rw [Bool.eq_false_of_not_eq_true here]
      exact ih found

theorem firstNone {p : Entry → Bool} {pos : Nat} {entries : List Entry} (none : firstAt p pos entries = none) :
    entries.find? p = Option.none := by
  induction entries generalizing pos with
  | nil => rfl
  | cons e rest ih =>
    rw [firstAt] at none
    rw [List.find?_cons]
    by_cases here : p e = true
    · rw [if_pos here] at none
      cases none
    · rw [if_neg here] at none
      rw [Bool.eq_false_of_not_eq_true here]
      exact ih none

/-- The image of any files of even lengths below 2 GiB serves each filename that no longer
name hides with the content of the first file of that name, read in any pieces. -/
theorem packServes {entries : List Entry} (whole : ∀ e ∈ entries, e.content.length % 2 = 0 ∧ e.content.length < 2^31)
    (fits : total entries < 2^64) {filename : Name} (clear : Unshadowed filename entries) :
    Serves (text (pack entries)) filename ((entries.find? (named filename)).map Entry.content) := by
  have archive : Archive (text (pack entries)) 0 entries := packArchive fun i => by rw [Nat.zero_add]
  have small : ∀ e ∈ passed filename entries, e.content.length + 1 < 2^31 := by
    intro e mem
    obtain ⟨_,_⟩ := whole e (List.takeWhile_subset _ mem)
    omega
  have same := (firstAtIff (fun _ => namedBegins) 0 entries).mpr clear
  have finds (fuel : Nat) (enough : fuel ≥ entries.length + 1) : initramfsFindFile (some (text (pack entries)))
      (some filename) fuel = .ret (firstAt (named filename) 0 entries) := by
    rw [← same]
    exact loopFinds archive filename small (by omega) enough
  cases found : firstAt (named filename) 0 entries with
  | none =>
    rw [found] at finds
    rw [firstNone found]
    refine ⟨entries.length + 1,fun fuel enough => ⟨finds fuel enough,fun stat => ?_⟩⟩
    rw [Initramfs.initramfsStat,finds fuel enough,Outcome.retBind]
  | some offset =>
    rw [found] at finds
    obtain ⟨e,first,held⟩ := firstHeld archive found
    obtain ⟨pair,low⟩ := whole e (List.mem_of_find?_eq_some first)
    have size := (sizeIff held).mpr ⟨pair,low⟩
    rw [first]
    refine ⟨offset,⟨entries.length + 1,fun fuel enough => ⟨finds fuel enough,fun stat =>
      ⟨.ofHeader (headerAt (text (pack entries)) offset),?_,size⟩⟩⟩,fun _ => size,
      fun position calls inside => readAllDelivers held pair low inside⟩
    rw [Initramfs.initramfsStat,finds fuel enough,Outcome.retBind]

def bootFiles : List Entry :=
  [⟨⟨[105,110,105,116],by simp⟩,[127,69,76,70],by decide,by decide⟩,⟨⟨[101,116,99],by simp⟩,[],by decide,by decide⟩]

theorem bootServes : Serves (text (pack bootFiles)) ⟨[47,105,110,105,116],by simp⟩ (some [127,69,76,70]) :=
  packServes (by decide) (by decide) fun e first => by
    cases first
    rfl

end Kdrivers.InitramfsPack
