import Kdrivers.BitFields
import Kdrivers.Bytes
import Kdrivers.Outcome

/-! What namespace_get_info (namespace.c) takes from the identify data of a namespace. -/
namespace Kdrivers.NvmeIdentify
open Bytes BitFields

structure Identify where
  cdw10 : BitVec 32
  cdw11 : BitVec 32
  nsid : BitVec 32
  deriving DecidableEq, Repr

structure Info where
  lbaSize : Nat
  metaFollowsLba : Nat
  metaSize : Nat
  nsze : Nat
  ncap : Nat
  nvmSet : Nat
  commandSet : BitVec 32
  nsid : BitVec 32

-- 1 << n is an int, as a size_t; from 32 on the shift is undefined
def intBit (n : Nat) : Outcome Nat :=
  if n < 31 then .ret (2^n) else if n = 31 then .ret (2^64 - 2^31) else .fault .tableIndex

def request (state : Info) : Identify := ⟨0,(state.commandSet &&& 0xFF) <<< 24,state.nsid⟩

section
variable (m : Masked)

def formatIdx (data : Mem) : Nat :=
  m.read (data 26).toBitVec 0 0xF ||| m.read (data 26).toBitVec 5 3 <<< 4

def readInfo (data : Mem) (state : Info) : Outcome Info := do
  let lbaf := BitVec.ofNat 32 (le32 data (128 + formatIdx m data))
  let lbaSize ← intBit (m.read lbaf 16 0xFF)
  .ret { state with
    metaFollowsLba := m.read (data 26).toBitVec 4 1
    lbaSize := lbaSize
    metaSize := m.read lbaf 0 0xFFFF
    nvmSet := (data 100).toNat
    nsze := le64 data 0
    ncap := le64 data 8 }

def statusOf : Nat → List (BitVec 32) → BitVec 32
  | _,[] => 0
  | k,status::rest => if status ≠ 0 then status ||| BitVec.ofNat 32 k <<< 16 else statusOf (k + 1) rest

/- The controller's answer to a command is its status and what the page holds then. -/
def namespaceGetInfo (allocated : Bool) (answer : Identify → BitVec 32 × Mem) (state : Info) :
    Outcome (BitVec 32 × Info) :=
  if !allocated then .ret (-1,state)
  else
    let cmd := request state
    let (status,data) := answer cmd
    if status ≠ 0 then .ret (statusOf 1 [status],state)
    else do
      let state ← readInfo m data state
      .ret (statusOf 2 [(answer { cmd with cdw10 := 0x5 }).1,(answer { cmd with cdw10 := 0x6 }).1,
        (answer { cmd with cdw10 := 0x8, cdw11 := 0 }).1],state)

end

def formatOf (data : Mem) : Nat := (data 26).toNat % 16 + 16 * ((data 26).toNat / 32 % 4)

structure Descriptor where
  metaSize : Nat
  lbads : Nat

def descriptorAt (data : Mem) (pos : Nat) : Descriptor := ⟨le16 data pos,(data (pos + 2)).toNat⟩

def selected (data : Mem) : Descriptor := descriptorAt data (128 + 4 * formatOf data)

def Stores (m : Masked) (answer : Identify → BitVec 32 × Mem) (state : Info) (data : Mem) : Prop :=
  ∃ status after, namespaceGetInfo m true answer state = .ret (status,after) ∧
    after.lbaSize = 2^(selected data).lbads ∧ after.metaSize = (selected data).metaSize

section
variable (m : Masked) (data : Mem)

theorem formatIdxEq : formatIdx m data = formatOf data := by
  have low := readField m (data 26).toBitVec 0 4
  have high := readField m (data 26).toBitVec 5 2
  simp only [UInt8.toNat_toBitVec] at low high
  have few : (data 26).toNat % 16 < 2^4 := Nat.mod_lt _ (by omega)
  calc formatIdx m data
      = (data 26).toNat / 2^0 % 2^4 ||| ((data 26).toNat / 2^5 % 2^2) <<< 4 := by rw [← low,← high]; rfl
    _ = ((data 26).toNat / 32 % 4) <<< 4 ||| (data 26).toNat % 16 := by rw [Nat.or_comm,Nat.pow_zero,Nat.div_one]; rfl
    _ = ((data 26).toNat / 32 % 4) <<< 4 + (data 26).toNat % 16 := (Nat.shiftLeft_add_eq_or_of_lt few _).symm
    _ = formatOf data := by rw [Nat.shiftLeft_eq,formatOf]; omega

theorem lbafNat (pos : Nat) : (BitVec.ofNat 32 (le32 data pos)).toNat = le32 data pos := by
  rw [BitVec.toNat_ofNat]
  exact Nat.mod_eq_of_lt (le32Lt data pos)

theorem readMeta (pos : Nat) :
    m.read (BitVec.ofNat 32 (le32 data pos)) 0 0xFFFF = (descriptorAt data pos).metaSize := by
  have low := le16Lt data pos
  have field := readField m (BitVec.ofNat 32 (le32 data pos)) 0 16
  rw [lbafNat,le32] at field
  change _ = le16 data pos
  exact field.trans (by omega)

theorem readLbads (pos : Nat) : m.read (BitVec.ofNat 32 (le32 data pos)) 16 0xFF = (descriptorAt data pos).lbads := by
  have low := le16Lt data pos
  have byte := (data (pos + 2)).toNat_lt
  have field := readField m (BitVec.ofNat 32 (le32 data pos)) 16 8
  have high : le16 data (pos + 2) = (data (pos + 2)).toNat + 256 * (data (pos + 2 + 1)).toNat := rfl
  rw [lbafNat,le32,high] at field
  change _ = (data (pos + 2)).toNat
  exact field.trans (by omega)

theorem readInfoEq (state : Info) : readInfo m data state = (intBit (descriptorAt data (128 + formatOf data)).lbads).map
    fun lbaSize => ⟨lbaSize,m.read (data 26).toBitVec 4 1,(descriptorAt data (128 + formatOf data)).metaSize,
      le64 data 0,le64 data 8,(data 100).toNat,state.commandSet,state.nsid⟩ := by
  rw [readInfo,formatIdxEq,readMeta,readLbads]
  rfl

end

theorem intBitIff {n k : Nat} : intBit n = .ret (2^k) ↔ n ≤ 30 ∧ n = k := by
  unfold intBit
  by_cases low : n < 31
  · rw [if_pos low]
    constructor
    · intro same
      exact ⟨by omega,Nat.pow_right_injective (Nat.le_refl 2) (Outcome.ret.inj same)⟩
    · rintro ⟨_,rfl⟩
      rfl
  refine iff_of_false ?_ fun same => absurd same.1 (by omega)
  rw [if_neg low]
  by_cases sign : n = 31
  · rw [if_pos sign]
    intro same
    have power : 2^64 - 2^31 = 2^k := Outcome.ret.inj same
    by_cases few : k ≤ 63
    · have less : 2^k ≤ 2^63 := Nat.pow_le_pow_right (by omega) few
      omega
    · have more : 2^64 ≤ 2^k := Nat.pow_le_pow_right (by omega) (by omega)
      omega
  · rw [if_neg sign]
    exact nofun

theorem descriptorsEq {data : Mem} {p q : Nat} : descriptorAt data p = descriptorAt data q ↔
    ∀ i < 3, data (p + i) = data (q + i) := by
  constructor
  · intro same
    have metas : le16 data p = le16 data q := congrArg Descriptor.metaSize same
    have bytes : (data (p + 2)).toNat = (data (q + 2)).toNat := congrArg Descriptor.lbads same
    have low := (data p).toNat_lt
    have low' := (data q).toNat_lt
    unfold le16 at metas
    intro i few
    obtain rfl | rfl | rfl : i = 0 ∨ i = 1 ∨ i = 2 := by omega
    · exact UInt8.toNat_inj.mp (by simp only [Nat.add_zero]; omega)
    · exact UInt8.toNat_inj.mp (by omega)
    · exact UInt8.toNat_inj.mp bytes
  · intro same
    rw [descriptorAt,descriptorAt,same 2 (by omega),le16Congr fun i few => same i (by omega)]

theorem infoRun (m : Masked) {answer : Identify → BitVec 32 × Mem} {state : Info} {data : Mem}
    (answered : answer (request state) = (0,data)) :
    namespaceGetInfo m true answer state = readInfo m data state >>= fun after =>
      .ret (statusOf 2 [(answer { request state with cdw10 := 0x5 }).1,(answer { request state with cdw10 := 0x6 }).1,
        (answer { request state with cdw10 := 0x8, cdw11 := 0 }).1],after) := by
  rw [namespaceGetInfo]
  simp only [answered]
  rfl

theorem storedSelected {m : Masked} {answer : Identify → BitVec 32 × Mem} {state : Info} {data : Mem}
    (answered : answer (request state) = (0,data)) (stores : Stores m answer state data) :
    (selected data).lbads ≤ 30 ∧ descriptorAt data (128 + formatOf data) = selected data := by
  obtain ⟨status,after,stored,size,metas⟩ := stores
  rw [infoRun m answered,readInfoEq] at stored
  obtain ⟨_,taken,last⟩ := Outcome.bindRet stored
  obtain ⟨bit,shifted,rest⟩ := Outcome.bindRet taken
  cases rest
  cases last
  obtain rfl : bit = 2^(selected data).lbads := size
  obtain ⟨fits,same⟩ := intBitIff.mp shifted
  exact ⟨same ▸ fits,congrArg₂ Descriptor.mk metas same⟩

/-- The selected descriptor is stored where the three bytes at its index, a byte a format,
agree with it, and its size fits an int. -/
theorem storesIff (m : Masked) {answer : Identify → BitVec 32 × Mem} {state : Info} {data : Mem}
    (answered : answer (request state) = (0,data)) : Stores m answer state data ↔
      (selected data).lbads ≤ 30 ∧
        ∀ i < 3, data (128 + formatOf data + i) = data (128 + 4 * formatOf data + i) := by
  rw [← descriptorsEq]
  constructor
  · exact storedSelected answered
  · rintro ⟨fits,same⟩
    have shifted := intBitIff.mpr ⟨fits,rfl⟩
    change descriptorAt data (128 + formatOf data) = selected data at same
    rw [Stores,infoRun m answered,readInfoEq,same,shifted]
    exact ⟨_,_,rfl,rfl,rfl⟩

def fiveFormats : Mem := fun i => if i = 26 then 4 else if i ∈ [134,146] then 12 else if i ∈ [130,138,142] then 9 else 0

theorem lastFormatStored : Stores .standard (fun _ => (0,fiveFormats)) ⟨0,0,0,0,0,0,0,1⟩ fiveFormats ∧
    formatOf fiveFormats = 4 ∧ (selected fiveFormats).lbads = 12 :=
  ⟨(storesIff .standard rfl).mpr ⟨by decide,by decide⟩,by decide,by decide⟩

def twoFormats : Mem := fun i => if i = 26 then 1 else if i = 130 then 9 else if i = 134 then 12 else 0

theorem secondFormatMissed : ¬ ∀ (m : Masked) (answer : Identify → BitVec 32 × Mem) (state : Info) (data : Mem),
    answer (request state) = (0,data) → Stores m answer state data := by
  intro all
  have stores := all .standard (fun _ => (0,twoFormats)) ⟨0,0,0,0,0,0,0,1⟩ twoFormats rfl
  have size := congrArg Descriptor.lbads (storedSelected rfl stores).2
  exact absurd size (by decide)

end Kdrivers.NvmeIdentify
