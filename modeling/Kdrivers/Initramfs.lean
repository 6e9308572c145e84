import Mathlib.Data.List.TakeWhile
import Kdrivers.CString
import Kdrivers.Outcome

/-! The initramfs image (initramfs/super.c): a walk over headers of the old CPIO format, with
names and contents padded to even lengths, and the search for a name with it. -/
namespace Kdrivers.Initramfs
open Bytes CString

structure HeaderCpio where
  magic : Nat
  device : Nat
  inode : Nat
  mode : Nat
  uid : Nat
  gid : Nat
  nlink : Nat
  rdev : Nat
  modTimeHigh : Nat
  modTimeLow : Nat
  namesize : Nat
  filesizeHigh : Nat
  filesizeLow : Nat

def HeaderCpio.ofBytes (m : Mem) : HeaderCpio where
  magic := le16 m 0
  device := le16 m 2
  inode := le16 m 4
  mode := le16 m 6
  uid := le16 m 8
  gid := le16 m 10
  nlink := le16 m 12
  rdev := le16 m 14
  modTimeHigh := le16 m 16
  modTimeLow := le16 m 18
  namesize := le16 m 20
  filesizeHigh := le16 m 22
  filesizeLow := le16 m 24

def cpioMagic : Nat := 0o070707

/- The macros of both drivers. ARC_NAME_OFFSET is the size of the header. -/
def nameOffset : Nat := 26
def nameSize (h : HeaderCpio) : Nat := h.namesize + h.namesize % 2
def dataOffset (h : HeaderCpio) : Nat := nameOffset + nameSize h

-- two halves put together in an int
def halves (high low : Nat) : BitVec 32 := BitVec.ofNat 32 high <<< 16 ||| BitVec.ofNat 32 low

def dataSize (h : HeaderCpio) : BitVec 32 :=
  halves h.filesizeHigh h.filesizeLow + (halves h.filesizeHigh h.filesizeLow &&& 1)

-- an int where a size_t is asked for
def toSize (v : BitVec 32) : Nat := (v.signExtend 64).toNat

def findLoop (fs : Mem) (filename : List UInt8) : Nat → Nat → Outcome (Option Nat)
  | 0,_ => .running
  | fuel+1,offset =>
    let header := HeaderCpio.ofBytes (view fs offset)
    if header.magic ≠ cpioMagic then .ret none
    else if strncmp filename.length (view fs (offset + nameOffset)) (text filename) = 0 then .ret (some offset)
    else findLoop fs filename fuel (add64 offset (add64 (dataOffset header) (toSize (dataSize header))))

-- one leading '/' is dropped
def dropSlash : List UInt8 → List UInt8
  | 47::rest => rest
  | bytes => bytes

def initramfsFindFile (fs : Option Mem) (filename : Option Name) (fuel : Nat) : Outcome (Option Nat) :=
  match fs,filename with
  | some fs,some filename => findLoop fs (dropSlash filename.bytes) fuel 0
  | _,_ => .ret none

structure Stat where
  uid : Nat
  gid : Nat
  mode : Nat
  dev : Nat
  ino : Nat
  nlink : Nat
  rdev : Nat
  size : Int
  mtimNsec : Int
  mtimSec : Int

def Stat.ofHeader (h : HeaderCpio) : Stat where
  uid := h.uid
  gid := h.gid
  mode := h.mode
  dev := h.device
  ino := h.inode
  nlink := h.nlink
  rdev := h.rdev
  size := (dataSize h).toInt
  mtimNsec := 0
  mtimSec := (halves h.modTimeHigh h.modTimeLow).toInt

def headerAt (fs : Mem) (offset : Nat) : HeaderCpio := .ofBytes (view fs offset)

-- without a filename the caller's structure stays as it is
def initramfsStat (fs : Option Mem) (filename : Option Name) (fuel : Nat) (stat : Stat) : Outcome (Int × Stat) :=
  match fs,filename with
  | _,none => .ret (0,stat)
  | none,some _ => .ret (1,stat)
  | some fs,some filename => do
    match ← initramfsFindFile (some fs) (some filename) fuel with
    | none => .ret (1,stat)
    | some offset => .ret (0,.ofHeader (headerAt fs offset))

def initramfsLocate (fs : Option Mem) (filename : Option Name) (fuel : Nat) : Outcome (Option Nat) :=
  match filename with
  | none => .ret none
  | some filename => initramfsFindFile fs (some filename) fuel

structure Entry where
  name : Name
  content : List UInt8
  short : name.bytes.length + 1 < 2^16
  sized : content.length < 2^32

def even (n : Nat) : Nat := n + n % 2

def Entry.start (e : Entry) : Nat := nameOffset + even (e.name.bytes.length + 1)
def Entry.extent (e : Entry) : Nat := e.start + even e.content.length

structure Entry.Held (e : Entry) (m : Mem) : Prop where
  magic : (HeaderCpio.ofBytes m).magic = cpioMagic
  namesize : (HeaderCpio.ofBytes m).namesize = e.name.bytes.length + 1
  filesize : (HeaderCpio.ofBytes m).filesizeHigh * 2^16 + (HeaderCpio.ofBytes m).filesizeLow = e.content.length
  name : ∀ i ≤ e.name.bytes.length, m (nameOffset + i) = text e.name.bytes i
  content : ∀ i < e.content.length, m (e.start + i) = text e.content i

inductive Archive (fs : Mem) : Nat → List Entry → Prop where
  | done {pos : Nat} (last : (headerAt fs pos).magic ≠ cpioMagic) : Archive fs pos []
  | entry {pos : Nat} {e : Entry} {rest : List Entry} (held : e.Held (view fs pos))
      (tail : Archive fs (pos + e.extent) rest) : Archive fs pos (e::rest)

def firstAt (p : Entry → Bool) : Nat → List Entry → Option Nat
  | _,[] => none
  | pos,e::rest => if p e then some pos else firstAt p (pos + e.extent) rest

theorem halvesEq {high low : Nat} (upper : high < 2^16) (lower : low < 2^16) :
    (halves high low).toNat = high * 2^16 + low := by
  have sum := Nat.shiftLeft_add_eq_or_of_lt lower high
  rw [Nat.shiftLeft_eq] at sum
  rw [halves,BitVec.toNat_or,BitVec.toNat_shiftLeft,BitVec.toNat_ofNat,BitVec.toNat_ofNat,Nat.shiftLeft_eq,
    Nat.mod_eq_of_lt (show high < 2^32 by omega),Nat.mod_eq_of_lt (show high * 2^16 < 2^32 by omega),
    Nat.mod_eq_of_lt (show low < 2^32 by omega),sum]

theorem dataSizeNat (m : Mem) : (dataSize (.ofBytes m)).toNat =
    even ((HeaderCpio.ofBytes m).filesizeHigh * 2^16 + (HeaderCpio.ofBytes m).filesizeLow) % 2^32 := by
  have upper : (HeaderCpio.ofBytes m).filesizeHigh < 2^16 := le16Lt m 22
  have lower : (HeaderCpio.ofBytes m).filesizeLow < 2^16 := le16Lt m 24
  rw [dataSize,BitVec.toNat_add,BitVec.toNat_and,halvesEq upper lower]
  exact congrArg (fun bit => (_ + bit) % 2^32) (Nat.and_one_is_mod _)

theorem dataSizeEq {e : Entry} {m : Mem} (held : e.Held m) :
    (dataSize (.ofBytes m)).toNat = even e.content.length % 2^32 := by
  rw [dataSizeNat,held.filesize]

theorem toSizeEq {v : BitVec 32} (small : v.toNat < 2^31) : toSize v = v.toNat := by
  have sign : v.msb = false := BitVec.msb_eq_false_iff_two_mul_lt.mpr (by omega)
  rw [toSize,BitVec.signExtend_eq_setWidth_of_msb_false sign,BitVec.toNat_setWidth]
  omega

theorem dataOffsetEq {e : Entry} {m : Mem} (held : e.Held m) : dataOffset (.ofBytes m) = e.start := by
  rw [dataOffset,nameSize,held.namesize]
  rfl

theorem extentEq {e : Entry} {m : Mem} (held : e.Held m) (small : e.content.length + 1 < 2^31) :
    add64 (dataOffset (.ofBytes m)) (toSize (dataSize (.ofBytes m))) = e.extent := by
  have short := e.short
  have size : (dataSize (.ofBytes m)).toNat = even e.content.length := by
    rw [dataSizeEq held]
    exact Nat.mod_eq_of_lt (by unfold even; omega)
  have low : even e.content.length < 2^31 := by
    unfold even
    omega
  have name : e.start < 2^17 := by
    unfold Entry.start even nameOffset
    omega
  rw [dataOffsetEq held,toSizeEq (by omega),size]
  exact add64Eq (by omega)

theorem strncmpWhole {a : Mem} {bytes target : List UInt8} (holds : ∀ i ≤ bytes.length, a i = text bytes i)
    (plain : ∀ b ∈ target, b ≠ 0) : strncmp target.length a (text target) = 0 ↔ target <+: bytes := by
  induction target generalizing a bytes with
  | nil => exact iff_of_true rfl bytes.nil_prefix
  | cons c target ih =>
    have some : c ≠ 0 := plain c List.mem_cons_self
    have first : text (c::target) 0 = c := rfl
    have head := holds 0 (Nat.zero_le _)
    rw [List.length_cons,strncmp,head,first]
    cases bytes with
    | nil =>
      have last : text [] 0 = 0 := rfl
      have differ : c.toNat ≠ 0 := fun zero => some (UInt8.toNat_inj.mp zero)
      rw [last,if_pos some.symm]
      simp [differ]
    | cons b bytes =>
      have same : text (b::bytes) 0 = b := rfl
      rw [same]
      by_cases equal : b = c
      · subst equal
        have tail : ∀ i ≤ bytes.length, view a 1 i = text bytes i := fun i inside => by
          rw [← textTail b bytes]
          exact holds (1 + i) (by rw [List.length_cons]; omega)
        rw [if_neg (not_not.mpr rfl),if_neg some,textTail,ih tail fun d mem => plain d (List.mem_cons_of_mem _ mem),
          List.cons_prefix_cons]
        simp
      · have differ : (b.toNat : Int) - c.toNat ≠ 0 := fun zero => equal (UInt8.toNat_inj.mp (by omega))
        rw [if_pos equal,List.cons_prefix_cons]
        simp [differ,Ne.symm equal]

def begins (filename : Name) (e : Entry) : Bool := (dropSlash filename.bytes).isPrefixOf e.name.bytes
def named (filename : Name) (e : Entry) : Bool := e.name.bytes == dropSlash filename.bytes

theorem slashPlain (filename : Name) : ∀ b ∈ dropSlash filename.bytes, b ≠ 0 := by
  intro b mem
  refine filename.plain b ?_
  generalize filename.bytes = bytes at *
  unfold dropSlash at mem
  split at mem
  · exact List.mem_cons_of_mem _ mem
  · exact mem

theorem namedBegins {filename : Name} {e : Entry} (same : named filename e = true) : begins filename e = true := by
  rw [begins,eq_of_beq same]
  exact List.isPrefixOf_iff_prefix.mpr (List.prefix_refl _)

def total (entries : List Entry) : Nat := (entries.map Entry.extent).sum

def passed (filename : Name) (entries : List Entry) : List Entry := entries.takeWhile fun e => !begins filename e

theorem heldCompare {fs : Mem} {pos : Nat} {e : Entry} (held : e.Held (view fs pos)) (filename : Name) :
    strncmp (dropSlash filename.bytes).length (view fs (pos + nameOffset)) (text (dropSlash filename.bytes)) = 0 ↔
      dropSlash filename.bytes <+: e.name.bytes := by
  refine strncmpWhole (fun i inside => ?_) (slashPlain filename)
  rw [← held.name i inside]
  exact congrArg fs (Nat.add_assoc _ _ _)

theorem loopFinds {fs : Mem} {pos : Nat} {entries : List Entry} (archive : Archive fs pos entries) (filename : Name)
    (small : ∀ e ∈ passed filename entries, e.content.length + 1 < 2^31) (fits : pos + total entries < 2^64) {fuel : Nat}
    (enough : entries.length < fuel) :
    findLoop fs (dropSlash filename.bytes) fuel pos = .ret (firstAt (begins filename) pos entries) := by
  induction archive generalizing fuel with
  | done last =>
    obtain ⟨fuel,rfl⟩ := Nat.exists_eq_add_of_lt enough
    exact if_pos last
  | @entry pos e rest held tail ih =>
    obtain ⟨fuel,rfl⟩ := Nat.exists_eq_add_of_lt enough
    have compare := heldCompare held filename
    rw [findLoop,if_neg (not_not.mpr held.magic)]
    by_cases starts : begins filename e = true
    · rw [if_pos (compare.mpr (List.isPrefixOf_iff_prefix.mp starts)),firstAt,if_pos starts]
    · have pass : passed filename (e::rest) = e::passed filename rest := by
        simp [passed,starts]
      have sum : total (e::rest) = e.extent + total rest := List.sum_cons
      rw [pass] at small
      have here := small e List.mem_cons_self
      have next : add64 pos e.extent = pos + e.extent := add64Eq (by omega)
      rw [if_neg fun zero => starts (List.isPrefixOf_iff_prefix.mpr (compare.mp zero)),extentEq held here,next,firstAt,
        if_neg starts]
      exact ih (fun f mem => small f (List.mem_cons_of_mem _ mem)) (by omega) (by rw [List.length_cons]; omega)

theorem firstAtBound {p : Entry → Bool} {pos x : Nat} {entries : List Entry} (found : firstAt p pos entries = some x) :
    pos ≤ x := by
  induction entries generalizing pos with
  | nil => cases found
  | cons e rest ih =>
    rw [firstAt] at found
    split at found
    · cases found
      exact Nat.le_refl _
    · exact Nat.le_of_add_right_le (ih found)

theorem firstAtIff {p q : Entry → Bool} (narrow : ∀ e, q e = true → p e = true) (pos : Nat) (entries : List Entry) :
    firstAt p pos entries = firstAt q pos entries ↔ ∀ e, entries.find? p = some e → q e = true := by
  induction entries generalizing pos with
  | nil => simp [firstAt]
  | cons e rest ih =>
    rw [firstAt,firstAt,List.find?_cons]
    by_cases wide : p e = true
    · by_cases both : q e = true
      · simp [wide,both]
      · have later : firstAt q (pos + e.extent) rest ≠ some pos := fun found => by
          have bound := firstAtBound found
          have some : 0 < e.extent := by
            unfold Entry.extent Entry.start nameOffset
            omega
          omega
        simp [wide,both,later.symm]
    · have less : q e ≠ true := fun both => wide (narrow e both)
      simp only [if_neg less,wide]
      exact ih _

structure Finds (fs : Mem) (filename : Name) (entries : List Entry) : Prop where
  finds : ∃ enough, ∀ fuel ≥ enough,
    initramfsFindFile (some fs) (some filename) fuel = .ret (firstAt (named filename) 0 entries)
  stats : ∃ enough, ∀ fuel ≥ enough, ∀ stat, initramfsStat (some fs) (some filename) fuel stat =
    .ret (match firstAt (named filename) 0 entries with
      | none => (1,stat)
      | some offset => (0,.ofHeader (headerAt fs offset)))
  locates : ∃ enough, ∀ fuel ≥ enough,
    initramfsLocate (some fs) (some filename) fuel = .ret (firstAt (named filename) 0 entries)

/- The first entry whose name begins with the filename has just that name. -/
def Unshadowed (filename : Name) (entries : List Entry) : Prop :=
  ∀ e, entries.find? (begins filename) = some e → named filename e = true

theorem findsOnly {fs : Mem} {filename : Name} {entries : List Entry} (archive : Archive fs 0 entries)
    (fits : total entries < 2^64) (small : ∀ e ∈ passed filename entries, e.content.length + 1 < 2^31)
    (finds : Finds fs filename entries) : Unshadowed filename entries := by
  obtain ⟨enough,ends⟩ := finds.finds
  have run := loopFinds archive filename small (by omega) (Nat.lt_succ_of_le (Nat.le_max_left entries.length enough))
  have other := ends _ (Nat.le_succ_of_le (Nat.le_max_right entries.length enough))
  rw [initramfsFindFile,run] at other
  exact (firstAtIff (fun _ => namedBegins) 0 entries).mp (Outcome.ret.inj other)

/-- In an archive whose entries up to the one found are below 2 GiB, the driver answers for
the file of the name just if no longer name that begins with it comes first. -/
theorem findsIff {fs : Mem} {filename : Name} {entries : List Entry} (archive : Archive fs 0 entries)
    (fits : total entries < 2^64) (small : ∀ e ∈ passed filename entries, e.content.length + 1 < 2^31) :
    Finds fs filename entries ↔ Unshadowed filename entries := by
  constructor
  · exact findsOnly archive fits small
  · intro clear
    have same := (firstAtIff (fun _ => namedBegins) 0 entries).mpr clear
    have finds (fuel : Nat) (enough : entries.length < fuel) :
        initramfsFindFile (some fs) (some filename) fuel = .ret (firstAt (named filename) 0 entries) := by
      rw [← same]
      exact loopFinds archive filename small (by omega) enough
    refine ⟨⟨entries.length + 1,finds⟩,⟨entries.length + 1,fun fuel enough stat => ?_⟩,⟨entries.length + 1,finds⟩⟩
    rw [initramfsStat,finds fuel enough,Outcome.retBind]
    cases firstAt (named filename) 0 entries <;> rfl

def xFile (content : List UInt8) (sized : content.length < 2^32) : Entry := ⟨⟨[120],by simp⟩,content,by decide,sized⟩

def wordFile : Entry := xFile [97,98,99,100] (by decide)
def wordBytes : List UInt8 :=
  [0xC7,0x71,0,0,0,0,0,0,0,0,0,0,0,0,0,0,0,0,0,0,2,0,0,0,4,0,120,0,97,98,99,100]

def loneBytes : List UInt8 :=
  [0xC7,0x71,0,0,0,0,0,0,0,0,0,0,0,0,0,0,0,0,0,0,3,0,0,0,0,0,97,98]

def loneFile : Entry := ⟨⟨[97,98],by simp⟩,[],by decide,Nat.two_pow_pos 32⟩
def absent : Name := ⟨[97],by simp⟩

theorem bothArchive : Archive (text (wordBytes ++ loneBytes)) 0 [wordFile,loneFile] := by
  refine .entry ⟨by decide,by decide,by decide,?_,?_⟩ (.entry ⟨by decide,by decide,by decide,?_,nofun⟩ (.done (by decide)))
  · decide
  · decide
  · decide

theorem abFound : Finds (text (wordBytes ++ loneBytes)) ⟨[47,97,98],by simp⟩ [wordFile,loneFile] ∧
    firstAt (named ⟨[47,97,98],by simp⟩) 0 [wordFile,loneFile] = some 32 := by
  refine ⟨(findsIff bothArchive (by decide) (by decide)).mpr fun e first => ?_,by decide⟩
  cases first
  rfl

theorem loneArchive : Archive (text loneBytes) 0 [loneFile] := by
  refine .entry ⟨by decide,by decide,by decide,?_,?_⟩ (.done (by decide))
  · decide
  · exact fun i low => absurd low (Nat.not_lt_zero i)

theorem longerFound : ¬ ∀ (fs : Mem) (filename : Name) (entries : List Entry), Archive fs 0 entries →
    total entries < 2^64 → Finds fs filename entries := by
  intro all
  have clear := findsOnly loneArchive (by decide) (by decide)
    (all (text loneBytes) absent [loneFile] loneArchive (by decide))
  exact absurd (clear loneFile rfl) (by decide)

end Kdrivers.Initramfs
