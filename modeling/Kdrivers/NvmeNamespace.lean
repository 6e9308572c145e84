import Mathlib.Data.Nat.ModEq
import Kdrivers.Bytes
import Kdrivers.Outcome

/-! Reads and writes of an NVMe namespace (namespace.c): ranges of bytes by commands of
one page each, over a page allocated at the first command. -/
namespace Kdrivers.NvmeNamespace
open Bytes

def pageSize : Nat := 4096

structure Align where
  down : Nat → Nat → Nat
  downs : ∀ {x k : Nat}, x < 2^64 → k < 64 → down x (2^k) = x / 2^k * 2^k

def Align.standard : Align := ⟨fun x a => x / a * a,fun _ _ => rfl⟩

structure NamespaceState where
  blockSize : Nat
  lbaSize : Nat
  nsid : Nat
  qpairBase : Int
  qpairCount : Int

structure Command where
  opcode : Nat
  nsid : Nat
  cdw10 : Nat
  cdw11 : Nat
  cdw12 : Nat
  deriving DecidableEq, Repr

structure Device where
  bytes : Mem
  issued : List Command

structure Port where
  status : Nat → Nat
  fresh : Option Mem

/- The controller: cdw12 is one less than the number of blocks. A failed command moves nothing. -/
def execute (port : Port) (lbaSize : Nat) (cmd : Command) (data : Mem) (dev : Device) : Nat × Mem × Device :=
  let status := port.status dev.issued.length
  let start := (cmd.cdw10 + 2^32 * cmd.cdw11) * lbaSize
  let length := (cmd.cdw12 % 2^16 + 1) * lbaSize
  let issued := dev.issued ++ [cmd]
  if status ≠ 0 then (status,data,{ dev with issued := issued })
  else if cmd.opcode = 1 then (status,data,⟨patch dev.bytes start length data,issued⟩)
  else (status,patch data 0 length (view dev.bytes start),{ dev with issued := issued })

def pageCommand (write : Bool) (state : NamespaceState) (bstart : Nat) : Command where
  opcode := if write then 1 else 2
  nsid := state.nsid
  cdw10 := bstart % 2^32
  cdw11 := bstart / 2^32
  cdw12 := (pageSize / state.lbaSize + (2^32 - 1)) % 2^32

def namespaceRwPage (port : Port) (write : Bool) (state : NamespaceState) (bstart : Nat) (page : Option Mem)
    (dev : Device) : Outcome (Nat × Option Mem × Device) := do
  let data ← match page,port.fresh with
    | some data,_ => .ret data
    | none,some data => .ret (patch data 0 pageSize zeros)
    | none,none => .fault .nullPointer
  if state.lbaSize = 0 then .fault .divisionByZero
  else
    let (status,data,dev) := execute port state.lbaSize (pageCommand write state bstart) data dev
    .ret (status,some data,dev)

structure Window where
  pageOffset : Nat
  size : Nat
  lba : Nat

-- the quotient goes through an int
def window (a : Align) (state : NamespaceState) (offset total done : Nat) : Window :=
  let aligned := a.down (add64 offset done) state.lbaSize
  let pageOffset := sub64 (add64 done offset) aligned
  let size := min state.blockSize (sub64 total done)
  let size := if 0 < pageOffset then min (sub64 state.blockSize (sub64 offset aligned)) total else size
  ⟨pageOffset,size,((BitVec.ofNat 32 (aligned / state.lbaSize)).signExtend 64).toNat⟩

def writeLoop (a : Align) (port : Port) (state : NamespaceState) (buffer : Mem) (offset total : Nat) :
    Nat → Nat → Option Mem → Device → Outcome (Nat × Device)
  | 0,_,_,_ => .running
  | fuel+1,written,page,dev =>
    if total ≤ written then .ret (written,dev)
    else if state.lbaSize = 0 then .fault .divisionByZero
    else do
      let w := window a state offset total written
      let (status,page,dev) ←
        if w.size < pageSize then namespaceRwPage port false state w.lba page dev else .ret (0,page,dev)
      if status ≠ 0 then .ret (written,dev)
      else match page with
        | none => .fault .nullPointer
        | some data =>
          let data := patch data w.pageOffset w.size (view buffer written)
          let (status,page,dev) ← namespaceRwPage port true state w.lba (some data) dev
          if status ≠ 0 then .ret (written,dev)
          else writeLoop a port state buffer offset total fuel (add64 written w.size) page dev

def writeNvmeNamespace (a : Align) (port : Port) (state : NamespaceState) (buffer : Mem) (size count offset : Nat)
    (fuel : Nat) (dev : Device) : Outcome (Nat × Device) :=
  writeLoop a port state buffer offset (mul64 size count) fuel 0 none dev

structure Paged (state : NamespaceState) : Prop where
  block : state.blockSize = pageSize
  lba : ∃ k ≤ 12, state.lbaSize = 2^k

structure Placed (state : NamespaceState) (offset total : Nat) : Prop where
  block : state.blockSize = pageSize
  lba : ∃ k ≤ 12, state.lbaSize = 2^k
  near : ∀ i < total, (offset + i) / state.lbaSize < 2^31

structure Served (state : NamespaceState) (port : Port) (offset total : Nat) : Prop where
  block : state.blockSize = pageSize
  lba : ∃ k ≤ 12, state.lbaSize = 2^k
  succeeds : ∀ k, port.status k = 0
  near : ∀ i < total, (offset + i) / state.lbaSize < 2^31

section
variable {a : Align} {port : Port} {state : NamespaceState} {offset total : Nat}

theorem Served.placed (s : Served state port offset total) : Placed state offset total := ⟨s.block,s.lba,s.near⟩

theorem Placed.paged (s : Placed state offset total) : Paged state := ⟨s.block,s.lba⟩

theorem Paged.positive (p : Paged state) : 0 < state.lbaSize := by
  obtain ⟨k,_,size⟩ := p.lba
  rw [size]
  exact Nat.two_pow_pos k

theorem Paged.divides (p : Paged state) : pageSize / state.lbaSize * state.lbaSize = pageSize := by
  obtain ⟨k,small,size⟩ := p.lba
  rw [size]
  exact Nat.div_mul_cancel (pow_dvd_pow 2 small)

theorem Paged.atMost (p : Paged state) : state.lbaSize ≤ pageSize := by
  obtain ⟨k,small,size⟩ := p.lba
  rw [size]
  exact Nat.pow_le_pow_right (by omega) small

theorem Placed.low (s : Placed state offset total) {i : Nat} (inside : i < total) : offset + i < 2^43 := by
  obtain ⟨k,small,size⟩ := s.lba
  have quotient := s.near i inside
  have step : 2^k ≤ 2^12 := Nat.pow_le_pow_right (by omega) small
  rw [size,Nat.div_lt_iff_lt_mul (Nat.two_pow_pos k)] at quotient
  calc offset + i < 2^31 * 2^k := quotient
    _ ≤ 2^31 * 2^12 := Nat.mul_le_mul_left _ step
    _ = 2^43 := by norm_num

theorem intLba {q : Nat} (small : q < 2^31) : ((BitVec.ofNat 32 q).signExtend 64).toNat = q := by
  have sign : (BitVec.ofNat 32 q).msb = false := by
    rw [BitVec.msb_eq_false_iff_two_mul_lt,BitVec.toNat_ofNat]
    omega
  rw [BitVec.signExtend_eq_setWidth_of_msb_false sign,BitVec.toNat_setWidth,BitVec.toNat_ofNat]
  omega

def share (state : NamespaceState) (offset total done : Nat) : Nat :=
  min (pageSize - (offset + done) % state.lbaSize) (total - done)

theorem wrappedLba (p : Paged state) (x : Nat) :
    BitVec.ofNat 32 (x % 2^64 / state.lbaSize) = BitVec.ofNat 32 (x / state.lbaSize) := by
  obtain ⟨k,small,size⟩ := p.lba
  have parts : 2^k * 2^(64 - k) = 2^64 := by rw [← Nat.pow_add,Nat.add_sub_cancel' (by omega)]
  have wide : 2^32 ∣ 2^(64 - k) := Nat.pow_dvd_pow 2 (by omega)
  apply BitVec.eq_of_toNat_eq
  rw [BitVec.toNat_ofNat,BitVec.toNat_ofNat,size,← parts,Nat.mod_mul_right_div_self,Nat.mod_mod_of_dvd _ wide]

theorem windowInt (p : Paged state) (low : offset < 2^64) (fits : total < 2^64) {done : Nat} (left : done < total)
    (start : done = 0 ∨ (offset + done) % state.lbaSize = 0) : window a state offset total done =
      ⟨(offset + done) % state.lbaSize,share state offset total done,
        ((BitVec.ofNat 32 ((offset + done) / state.lbaSize)).signExtend 64).toNat⟩ := by
  have inside := (Nat.mod_lt (offset + done) p.positive).trans_le p.atMost
  have parts := Nat.div_add_mod' ((offset + done) % 2^64) state.lbaSize
  have inner : (offset + done) % 2^64 % state.lbaSize = (offset + done) % state.lbaSize := by
    obtain ⟨k,small,size⟩ := p.lba
    rw [size]
    exact Nat.mod_mod_of_dvd _ (Nat.pow_dvd_pow 2 (by omega))
  have aligned : a.down ((offset + done) % 2^64) state.lbaSize =
      (offset + done) % 2^64 / state.lbaSize * state.lbaSize := by
    obtain ⟨k,small,size⟩ := p.lba
    rw [size]
    exact a.downs (Nat.mod_lt _ (by omega)) (by omega)
  have lba : BitVec.ofNat 32 ((offset + done) % 2^64 / state.lbaSize * state.lbaSize / state.lbaSize) =
      BitVec.ofNat 32 ((offset + done) / state.lbaSize) := by
    rw [Nat.mul_div_cancel _ p.positive,wrappedLba p]
  rw [inner] at parts
  generalize (offset + done) % 2^64 / state.lbaSize * state.lbaSize = floor at *
  have sum : add64 offset done = (offset + done) % 2^64 := rfl
  have sum' : add64 done offset = (offset + done) % 2^64 := by rw [add64,Nat.add_comm]
  have rest : sub64 ((offset + done) % 2^64) floor = (offset + done) % state.lbaSize := by
    rw [sub64Eq (Nat.mod_lt _ (by omega)) (by omega)]
    omega
  have remaining : sub64 total done = total - done := sub64Eq fits left.le
  have size : (if 0 < (offset + done) % state.lbaSize then min (sub64 state.blockSize (sub64 offset floor)) total
      else min state.blockSize (total - done)) = share state offset total done := by
    rw [share,p.block]
    by_cases whole : (offset + done) % state.lbaSize = 0
    · rw [if_neg (by omega),whole,Nat.sub_zero]
    · obtain rfl := start.resolve_right whole
      have page : pageSize < 2^64 := by decide
      simp only [Nat.add_zero,Nat.sub_zero,Nat.mod_eq_of_lt low] at *
      rw [if_pos (by omega),rest,sub64Eq page (by omega)]
  simp only [window,sum,sum',aligned,rest,remaining,size,lba]

theorem windowEq (s : Placed state offset total) {done : Nat} (left : done < total)
    (start : done = 0 ∨ (offset + done) % state.lbaSize = 0) : window a state offset total done =
      ⟨(offset + done) % state.lbaSize,share state offset total done,(offset + done) / state.lbaSize⟩ := by
  have last := s.low (show total - 1 < total by omega)
  rw [windowInt s.paged (by omega) (by omega) left start,intLba (s.near done left)]

theorem Paged.length (p : Paged state) :
    ((pageSize / state.lbaSize + (2^32 - 1)) % 2^32 % 2^16 + 1) * state.lbaSize = pageSize := by
  have some : 0 < pageSize / state.lbaSize := Nat.div_pos p.atMost p.positive
  have few : pageSize / state.lbaSize ≤ 4096 := Nat.div_le_self _ _
  have blocks := p.divides
  generalize pageSize / state.lbaSize = n at *
  rwa [show (n + (2^32 - 1)) % 2^32 % 2^16 + 1 = n by omega]

-- the page a command uses, allocated and cleared if there is none
def pageOf (port : Port) (page : Option Mem) : Option Mem :=
  page <|> port.fresh.map fun data => patch data 0 pageSize zeros

theorem pageGiven (p : Paged state) (write : Bool) (q : Nat) {page : Option Mem} {held : Mem}
    (allocated : pageOf port page = some held) {dev after : Device} {status : Nat} {data : Mem}
    (run : execute port state.lbaSize (pageCommand write state q) held dev = (status,data,after)) :
    namespaceRwPage port write state q page dev = .ret (status,some data,after) := by
  cases page with
  | some given =>
    cases allocated
    simp only [namespaceRwPage,Outcome.retBind,if_neg p.positive.ne',run]
  | none =>
    cases fresh : port.fresh with
    | none => simp [pageOf,fresh] at allocated
    | some given =>
      rw [pageOf,fresh] at allocated
      cases allocated
      simp only [namespaceRwPage,fresh,Outcome.retBind,if_neg p.positive.ne',run]

theorem readPage (p : Paged state) (q : Nat) {page : Option Mem} {held : Mem}
    (allocated : pageOf port page = some held) {dev : Device} (succeeds : port.status dev.issued.length = 0) :
    namespaceRwPage port false state q page dev =
      .ret (0,some (patch held 0 pageSize (view dev.bytes (q * state.lbaSize))),
        ⟨dev.bytes,dev.issued ++ [pageCommand false state q]⟩) := by
  have start : q % 2^32 + 2^32 * (q / 2^32) = q := Nat.mod_add_div q _
  refine pageGiven p false q allocated ?_
  simp only [execute,pageCommand,succeeds,p.length,start]
  rfl

theorem pageRefused (p : Paged state) (write : Bool) (q : Nat) {page : Option Mem} {held : Mem}
    (allocated : pageOf port page = some held) {dev : Device} (failed : port.status dev.issued.length ≠ 0) :
    namespaceRwPage port write state q page dev =
      .ret (port.status dev.issued.length,some held,⟨dev.bytes,dev.issued ++ [pageCommand write state q]⟩) :=
  pageGiven p write q allocated (if_pos failed)

theorem writePage (s : Served state port offset total) (q : Nat) (data : Mem) (dev : Device) :
    namespaceRwPage port true state q (some data) dev = .ret (0,some data,
      ⟨patch dev.bytes (q * state.lbaSize) pageSize data,dev.issued ++ [pageCommand true state q]⟩) := by
  have start : q % 2^32 + 2^32 * (q / 2^32) = q := Nat.mod_add_div q _
  refine pageGiven s.placed.paged true q rfl ?_
  simp only [execute,pageCommand,s.succeeds,s.placed.paged.length,start]
  rfl

theorem pageMissing (write : Bool) (q : Nat) (dev : Device) (missing : port.fresh = none) :
    namespaceRwPage port write state q none dev = .fault .nullPointer := by
  simp only [namespaceRwPage,missing,Outcome.faultBind]

def Ready (state : NamespaceState) (port : Port) (offset total done : Nat) (page : Option Mem) : Prop :=
  page.isSome ∨ port.fresh.isSome ∧ share state offset total done < pageSize

theorem readyPage {done : Nat} {page : Option Mem} (ready : Ready state port offset total done page) :
    ∃ held, pageOf port page = some held := by
  cases page with
  | some data => exact ⟨data,rfl⟩
  | none =>
    obtain none | ⟨fresh,_⟩ := ready
    · cases none
    · obtain ⟨data,some⟩ := Option.isSome_iff_exists.mp fresh
      exact ⟨patch data 0 pageSize zeros,by rw [pageOf,some]; rfl⟩

theorem shareInPage (p : Paged state) (offset total done : Nat) :
    (offset + done) % state.lbaSize + share state offset total done ≤ pageSize := by
  have inside := (Nat.mod_lt (offset + done) p.positive).trans_le p.atMost
  calc (offset + done) % state.lbaSize + share state offset total done
      ≤ (offset + done) % state.lbaSize + (pageSize - (offset + done) % state.lbaSize) :=
        Nat.add_le_add_left (Nat.min_le_left _ _) _
    _ = pageSize := Nat.add_sub_of_le inside.le

theorem shareLe (done : Nat) : share state offset total done ≤ total - done := Nat.min_le_right _ _

theorem sharePos (p : Paged state) (offset : Nat) {done : Nat} (left : done < total) :
    0 < share state offset total done := by
  have inside := (Nat.mod_lt (offset + done) p.positive).trans_le p.atMost
  exact Nat.lt_min.mpr ⟨Nat.sub_pos_of_lt inside,Nat.sub_pos_of_lt left⟩

theorem turnWrites (s : Served state port offset total) (buffer : Mem) {done : Nat} (left : done < total)
    (start : done = 0 ∨ (offset + done) % state.lbaSize = 0) {page : Option Mem}
    (ready : Ready state port offset total done page) (dev : Device) : ∃ data issued, ∀ fuel,
    writeLoop a port state buffer offset total (fuel + 1) done page dev =
      writeLoop a port state buffer offset total fuel (done + share state offset total done) (some data)
        ⟨patch dev.bytes (offset + done) (share state offset total done) (view buffer done),issued⟩ := by
  have place := Nat.div_add_mod' (offset + done) state.lbaSize
  have within := shareInPage s.placed.paged offset total done
  have next : add64 done (share state offset total done) = done + share state offset total done := by
    have less : share state offset total done ≤ total - done := shareLe done
    have last := s.placed.low (show total - 1 < total by omega)
    exact add64Eq (by omega)
  have entered (fuel : Nat) := writeLoop.eq_2 a port state buffer offset total done page dev fuel
  simp only [if_neg (Nat.not_le_of_lt left),if_neg s.placed.paged.positive.ne',windowEq s.placed left start,next] at entered
  by_cases part : share state offset total done < pageSize
  · obtain ⟨held,allocated⟩ := readyPage ready
    have read := readPage s.placed.paged ((offset + done) / state.lbaSize) allocated (s.succeeds dev.issued.length)
    simp only [if_pos part,read,Outcome.retBind,writePage s,ne_eq,not_true_eq_false,if_false,patchBack within,place]
      at entered
    exact ⟨_,_,entered⟩
  · have whole : (offset + done) % state.lbaSize = 0 := by omega
    have all : share state offset total done = pageSize := by omega
    rw [whole,Nat.add_zero] at place
    obtain some | ⟨_,less⟩ := ready
    · obtain ⟨held,rfl⟩ := Option.isSome_iff_exists.mp some
      simp only [Outcome.retBind,writePage s,ne_eq,not_true_eq_false,if_false,whole,all,patchWhole,place]
        at entered
      rw [all]
      exact ⟨_,_,entered⟩
    · exact absurd less part

theorem startsNext (p : Paged state) (offset : Nat) {done : Nat} (left : done < total) :
    done + share state offset total done = total ∨
      (offset + (done + share state offset total done)) % state.lbaSize = 0 := by
  have place := Nat.div_add_mod' (offset + done) state.lbaSize
  have inside := (Nat.mod_lt (offset + done) p.positive).trans_le p.atMost
  by_cases last : total - done ≤ pageSize - (offset + done) % state.lbaSize
  · refine .inl ?_
    rw [share,Nat.min_eq_right last,Nat.add_sub_of_le left.le]
  · refine .inr ?_
    rw [share,Nat.min_eq_left (Nat.le_of_not_le last)]
    have sum : offset + (done + (pageSize - (offset + done) % state.lbaSize)) =
        ((offset + done) / state.lbaSize + pageSize / state.lbaSize) * state.lbaSize := by
      rw [Nat.add_mul,p.divides]
      omega
    rw [sum,Nat.mul_mod_left]

theorem writeRest (s : Served state port offset total) (buffer : Mem) {done : Nat} (within : done ≤ total)
    (start : done = total ∨ (offset + done) % state.lbaSize = 0) (held : Mem) (dev : Device) : ∃ fuel issued,
    writeLoop a port state buffer offset total fuel done (some held) dev =
      .ret (total,⟨patch dev.bytes (offset + done) (total - done) (view buffer done),issued⟩) := by
  induction rest : total - done using Nat.strong_induction_on generalizing done held dev with
  | _ n ih =>
    by_cases finished : done = total
    · subst finished
      rw [Nat.sub_self] at rest
      subst rest
      refine ⟨1,dev.issued,?_⟩
      rw [writeLoop,if_pos (Nat.le_refl _),patchNone]
    · have left : done < total := by omega
      have aligned := start.resolve_left finished
      have ready : Ready state port offset total done (some held) := .inl rfl
      obtain ⟨data,issued,turn⟩ := turnWrites (a := a) s buffer left (.inr aligned) ready dev
      have some := sharePos s.placed.paged offset left
      have few : share state offset total done ≤ total - done := shareLe done
      obtain ⟨fuel,issued',run⟩ := ih _ (by omega) (by omega) (startsNext s.placed.paged offset left) data _ rfl
      refine ⟨fuel + 1,issued',?_⟩
      rw [turn,run,← rest,← Nat.add_assoc,← viewView,patchAppend,Nat.sub_add_eq,Nat.add_sub_of_le few]

def Writes (a : Align) (port : Port) (state : NamespaceState) (buffer : Mem) (size count offset : Nat) (dev : Device) :
    Prop := ∃ fuel dev', writeNvmeNamespace a port state buffer size count offset fuel dev = .ret (size * count,dev') ∧
  (∀ i < size * count, dev'.bytes (offset + i) = buffer i) ∧
  ∀ i, i < offset ∨ offset + size * count ≤ i → dev'.bytes i = dev.bytes i

theorem writesOf {size count : Nat} {buffer : Mem} {dev : Device} (small : size * count < 2^64) (fuel : Nat)
    (issued : List Command) (run : writeLoop a port state buffer offset (size * count) fuel 0 none dev =
      .ret (size * count,⟨patch dev.bytes offset (size * count) buffer,issued⟩)) :
    Writes a port state buffer size count offset dev := by
  refine ⟨fuel,⟨_,issued⟩,by rw [writeNvmeNamespace,mul64Eq small,run],fun i inside => ?_,fun i outside => ?_⟩
  · change patch _ _ _ _ _ = _
    rw [patchInside (by omega) (by omega),Nat.add_sub_cancel_left]
  · exact patchOutside outside

theorem firstFaults (s : Served state port offset total) (buffer : Mem) (some : 0 < total)
    (missing : ¬ Ready state port offset total 0 none) (fuel : Nat) (dev : Device) :
    writeLoop a port state buffer offset total (fuel + 1) 0 none dev = .fault .nullPointer := by
  rw [writeLoop,if_neg (Nat.not_le_of_lt some),if_neg s.placed.paged.positive.ne',windowEq s.placed some (.inl rfl)]
  by_cases part : share state offset total 0 < pageSize
  · have none : port.fresh = none := by
      cases fresh : port.fresh with
      | none => rfl
      | some data => exact absurd (.inr ⟨by rw [fresh]; rfl,part⟩) missing
    simp only [if_pos part,pageMissing false _ dev none,Outcome.faultBind]
  · simp only [if_neg part,Outcome.retBind]
    rfl

theorem readyFirst (s : Served state port offset total) : Ready state port offset total 0 none ↔
    port.fresh.isSome ∧ (offset % state.lbaSize ≠ 0 ∨ total < pageSize) := by
  have inside := (Nat.mod_lt offset s.placed.paged.positive).trans_le s.placed.paged.atMost
  simp only [Ready,share,Option.isSome_none,Bool.false_eq_true,false_or,Nat.add_zero,Nat.sub_zero]
  refine and_congr_right fun _ => ?_
  omega

/-- A write does what it is to do unless the first page starts at a block and is written
whole: that page is not read, and so was not allocated. -/
theorem writesIff {size count : Nat} (s : Served state port offset (size * count)) (buffer : Mem) (dev : Device) :
    Writes a port state buffer size count offset dev ↔
      size * count = 0 ∨ port.fresh.isSome ∧ (offset % state.lbaSize ≠ 0 ∨ size * count < pageSize) := by
  by_cases empty : size * count = 0
  · refine iff_of_true (writesOf (by omega) 1 dev.issued ?_) (.inl empty)
    rw [writeLoop,if_pos (by omega),empty,patchNone]
  have some : 0 < size * count := Nat.pos_of_ne_zero empty
  have small := s.placed.low (show size * count - 1 < size * count by omega)
  constructor
  · rintro ⟨fuel,dev',run,_⟩
    refine .inr ((readyFirst s).mp ?_)
    by_contra missing
    rw [writeNvmeNamespace,mul64Eq (by omega)] at run
    cases fuel with
    | zero => cases run
    | succ fuel =>
      rw [firstFaults s buffer some missing] at run
      cases run
  · intro condition
    have ready := (readyFirst s).mpr (condition.resolve_left empty)
    obtain ⟨data,issued,turn⟩ := turnWrites (a := a) s buffer some (.inl rfl) ready dev
    have few : share state offset (size * count) 0 ≤ size * count := shareLe 0
    obtain ⟨fuel,issued',run⟩ := writeRest (a := a) s buffer (by omega) (startsNext s.placed.paged offset some) data
      ⟨patch dev.bytes (offset + 0) (share state offset (size * count) 0) (view buffer 0),issued⟩
    refine writesOf (by omega) (fuel + 1) issued' ?_
    rw [turn,run]
    simp only [Nat.add_zero,Nat.zero_add,viewZero,patchAppend,Nat.add_sub_of_le few]

end

def plainState : NamespaceState := ⟨pageSize,512,1,0,1⟩
def plainPort : Port := ⟨fun _ => 0,some zeros⟩

theorem plainServed {offset total : Nat} (low : offset + total ≤ 2^40) : Served plainState plainPort offset total := by
  refine ⟨rfl,⟨9,by omega,rfl⟩,fun _ => rfl,fun i inside => ?_⟩
  change (offset + i) / 512 < 2^31
  omega

theorem writesUnaligned : Writes .standard plainPort plainState zeros 3000 2 100 ⟨zeros,[]⟩ :=
  (writesIff (plainServed (by omega)) zeros ⟨zeros,[]⟩).mpr (.inr ⟨rfl,.inl (by decide)⟩)

theorem wholePageNull : ¬ ∀ (a : Align) (port : Port) (state : NamespaceState) (buffer : Mem) (size count offset : Nat)
    (dev : Device), Served state port offset (size * count) → port.fresh.isSome →
      Writes a port state buffer size count offset dev := by
  intro all
  have served : Served plainState plainPort 0 (1 * 4096) := plainServed (by omega)
  obtain ⟨fuel,dev',run,_⟩ := all .standard plainPort plainState zeros 1 4096 0 ⟨zeros,[]⟩ served rfl
  have missing : ¬ Ready plainState plainPort 0 (1 * 4096) 0 none := by
    rw [readyFirst served]
    exact fun ready => absurd ready.2 (by decide)
  rw [writeNvmeNamespace,mul64Eq (by omega)] at run
  cases fuel with
  | zero => cases run
  | succ fuel =>
    rw [firstFaults served zeros (by omega) missing] at run
    cases run

end Kdrivers.NvmeNamespace
