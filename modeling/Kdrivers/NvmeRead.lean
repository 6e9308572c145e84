import Kdrivers.NvmeNamespace

/-! Reads of an NVMe namespace under every pattern of failing commands: each command
delivers a page's share of the range, up to the first that fails. -/
namespace Kdrivers.NvmeRead
open Bytes NvmeNamespace

structure Reading where
  read : Nat
  page : Option Mem
  buffer : Mem
  dev : Device

section Loop
variable (a : Align) (port : Port) (state : NamespaceState) (offset total : Nat)

def readTurn (r : Reading) : Outcome (Bool × Reading) :=
  if state.lbaSize = 0 then .fault .divisionByZero
  else do
    let w := window a state offset total r.read
    let (status,page,dev) ← namespaceRwPage port false state w.lba r.page r.dev
    if status ≠ 0 then .ret (false,{ r with page := page, dev := dev })
    else match page with
      | none => .fault .nullPointer
      | some data =>
        .ret (true,⟨add64 r.read w.size,page,patch r.buffer r.read w.size (view data w.pageOffset),dev⟩)

def readLoop : Nat → Reading → Outcome Reading
  | 0,_ => .running
  | fuel+1,r =>
    if total ≤ r.read then .ret r
    else do
      let (more,r) ← readTurn a port state offset total r
      if more then readLoop fuel r else .ret r

inductive Reached (start : Reading) : Reading → Prop where
  | start : Reached start start
  | turn {r after : Reading} (reached : Reached start r) (more : r.read < total)
      (run : readTurn a port state offset total r = .ret (true,after)) : Reached start after

end Loop

def readNvmeNamespace (a : Align) (port : Port) (state : NamespaceState) (buffer : Mem) (size count offset : Nat)
    (fuel : Nat) (dev : Device) : Outcome (Nat × Mem × Device) :=
  (readLoop a port state offset (mul64 size count) fuel ⟨0,none,buffer,dev⟩).map fun r => (r.read,r.buffer,r.dev)

def delivered (state : NamespaceState) (offset total j : Nat) : Nat :=
  min total (j * pageSize - offset % state.lbaSize)

structure Reads (a : Align) (port : Port) (state : NamespaceState) (buffer : Mem) (size count offset : Nat)
    (dev : Device) : Prop where
  returns : ∃ fuel n out after, readNvmeNamespace a port state buffer size count offset fuel dev = .ret (n,out,after) ∧
    (∀ k < n, out k = dev.bytes (offset + k)) ∧ (∀ k, n ≤ k → out k = buffer k) ∧ after.bytes = dev.bytes ∧
    ((∀ i, port.status (dev.issued.length + i) = 0) → n = size * count) ∧
    ∀ j, (∀ i < j, port.status (dev.issued.length + i) = 0) → port.status (dev.issued.length + j) ≠ 0 →
      n = delivered state offset (size * count) j
  copies : ∀ r, Reached a port state offset (mul64 size count) ⟨0,none,buffer,dev⟩ r → r.read < mul64 size count →
    (window a state offset (mul64 size count) r.read).pageOffset +
      (window a state offset (mul64 size count) r.read).size ≤ pageSize ∧
    r.read + (window a state offset (mul64 size count) r.read).size ≤ size * count

section
variable {a : Align} {port : Port} {state : NamespaceState} {offset total : Nat}

structure Holds (port : Port) (state : NamespaceState) (offset total : Nat) (buffer : Mem) (dev : Device) (j : Nat)
    (r : Reading) : Prop where
  read : r.read = delivered state offset total j
  start : r.read = total ∨ r.read = 0 ∨ (offset + r.read) % state.lbaSize = 0
  page : ∃ held, pageOf port r.page = some held
  bytes : r.dev.bytes = dev.bytes
  issued : r.dev.issued.length = dev.issued.length + j
  buffer : r.buffer = patch buffer 0 r.read (view dev.bytes offset)
  running : ∀ i < j, delivered state offset total i < total
  succeeded : ∀ i < j, port.status (dev.issued.length + i) = 0

theorem deliveredNext (p : Paged state) {j : Nat} (left : delivered state offset total j < total)
    (start : delivered state offset total j = 0 ∨ (offset + delivered state offset total j) % state.lbaSize = 0) :
    delivered state offset total (j + 1) =
      delivered state offset total j + share state offset total (delivered state offset total j) := by
  have inside := (Nat.mod_lt offset p.positive).trans_le p.atMost
  have size : pageSize = 4096 := rfl
  have turn : (j + 1) * pageSize = j * pageSize + 4096 := Nat.succ_mul j pageSize
  unfold delivered share at *
  cases j with
  | zero =>
    simp only [Nat.zero_mul,Nat.zero_sub,Nat.min_zero,Nat.add_zero,Nat.zero_add,Nat.one_mul,Nat.sub_zero]
    exact Nat.min_comm _ _
  | succ j =>
    have first : (j + 1) * pageSize = j * pageSize + 4096 := Nat.succ_mul j pageSize
    have here : min total ((j + 1) * pageSize - offset % state.lbaSize) = (j + 1) * pageSize - offset % state.lbaSize := by
      omega
    rw [here] at left start ⊢
    have aligned : (offset + ((j + 1) * pageSize - offset % state.lbaSize)) % state.lbaSize = 0 :=
      start.resolve_left (by omega)
    rw [aligned]
    omega

theorem windowAt (p : Placed state offset total) {buffer : Mem} {dev : Device} {j : Nat} {r : Reading}
    (holds : Holds port state offset total buffer dev j r) (more : r.read < total) :
    window a state offset total r.read = ⟨(offset + r.read) % state.lbaSize,share state offset total r.read,
      (offset + r.read) / state.lbaSize⟩ :=
  windowEq p more (holds.start.resolve_left (by omega))

theorem turnReads (p : Placed state offset total) {buffer : Mem} {dev : Device} {j : Nat} {r : Reading}
    (holds : Holds port state offset total buffer dev j r) (more : r.read < total)
    (succeeds : port.status (dev.issued.length + j) = 0) : ∃ after,
    readTurn a port state offset total r = .ret (true,after) ∧ Holds port state offset total buffer dev (j + 1) after ∧
      r.read < after.read := by
  obtain ⟨held,allocated⟩ := holds.page
  have place := Nat.div_add_mod' (offset + r.read) state.lbaSize
  have within := shareInPage p.paged offset total r.read
  have some := sharePos p.paged offset more
  have few : share state offset total r.read ≤ total - r.read := shareLe r.read
  have last := p.low (show total - 1 < total by omega)
  have next : add64 r.read (share state offset total r.read) = r.read + share state offset total r.read :=
    add64Eq (by omega)
  rw [← holds.issued] at succeeds
  have command := readPage p.paged ((offset + r.read) / state.lbaSize) allocated succeeds
  let data := patch held 0 pageSize (view r.dev.bytes ((offset + r.read) / state.lbaSize * state.lbaSize))
  have copied (i : Nat) (low : i < share state offset total r.read) :
      data ((offset + r.read) % state.lbaSize + i) = dev.bytes (offset + (r.read + i)) := by
    have inner : (offset + r.read) % state.lbaSize + i < 0 + pageSize := by omega
    change patch held 0 pageSize _ _ = _
    rw [patchInside (Nat.zero_le _) inner,holds.bytes,viewApply]
    exact congrArg dev.bytes (by omega)
  refine ⟨⟨r.read + share state offset total r.read,Option.some data,patch r.buffer r.read
    (share state offset total r.read) (view data ((offset + r.read) % state.lbaSize)),r.dev.bytes,
    r.dev.issued ++ [pageCommand false state ((offset + r.read) / state.lbaSize)]⟩,?_,?_,?_⟩
  · rw [readTurn,if_neg p.paged.positive.ne',windowAt p holds more]
    simp only [command,Outcome.retBind,ne_eq,not_true_eq_false,if_false,next]
    rfl
  · have moved := deliveredNext p.paged (holds.read ▸ more) (holds.read ▸ holds.start.resolve_left (by omega))
    rw [← holds.read] at moved
    constructor
    · exact moved.symm
    · obtain all | aligned := startsNext p.paged offset more
      · exact .inl all
      · exact .inr (.inr aligned)
    · exact ⟨_,rfl⟩
    · exact holds.bytes
    · simp only [List.length_append,List.length_singleton,holds.issued,Nat.add_assoc]
    · calc patch r.buffer r.read (share state offset total r.read) (view data ((offset + r.read) % state.lbaSize))
          = patch r.buffer r.read (share state offset total r.read) (view (view dev.bytes offset) r.read) :=
            patchCongr fun i low => copied i low
        _ = patch buffer 0 (r.read + share state offset total r.read) (view dev.bytes offset) := by
            rw [holds.buffer]
            have append := patchAppend buffer (view dev.bytes offset) 0 r.read (share state offset total r.read)
            rwa [Nat.zero_add] at append
    · intro i low
      by_cases before : i < j
      · exact holds.running i before
      · rw [show i = j by omega]
        exact holds.read ▸ more
    · intro i low
      by_cases before : i < j
      · exact holds.succeeded i before
      · rw [holds.issued] at succeeds
        rwa [show i = j by omega]
  · change r.read < r.read + share state offset total r.read
    omega

theorem turnFails (p : Placed state offset total) {buffer : Mem} {dev : Device} {j : Nat} {r : Reading}
    (holds : Holds port state offset total buffer dev j r) (more : r.read < total)
    (fails : port.status (dev.issued.length + j) ≠ 0) : ∃ page issued, issued.length = dev.issued.length + j + 1 ∧
    readTurn a port state offset total r = .ret (false,⟨r.read,page,r.buffer,r.dev.bytes,issued⟩) := by
  obtain ⟨held,allocated⟩ := holds.page
  rw [← holds.issued] at fails
  have command := pageRefused p.paged false ((offset + r.read) / state.lbaSize) allocated fails
  refine ⟨some held,r.dev.issued ++ [pageCommand false state ((offset + r.read) / state.lbaSize)],?_,?_⟩
  · rw [List.length_append,holds.issued]
    rfl
  · rw [readTurn,if_neg p.paged.positive.ne',windowAt p holds more]
    simp only [command,Outcome.retBind,if_pos fails]

structure Ended (port : Port) (state : NamespaceState) (offset total : Nat) (buffer : Mem) (dev : Device) (i : Nat)
    (r : Reading) : Prop where
  read : r.read = delivered state offset total i
  bytes : r.dev.bytes = dev.bytes
  buffer : r.buffer = patch buffer 0 r.read (view dev.bytes offset)
  running : ∀ k < i, delivered state offset total k < total
  succeeded : ∀ k < i, port.status (dev.issued.length + k) = 0
  stops : r.read = total ∧ r.dev.issued.length = dev.issued.length + i ∨
    r.read < total ∧ r.dev.issued.length = dev.issued.length + i + 1 ∧ port.status (dev.issued.length + i) ≠ 0

theorem Ended.whole {buffer : Mem} {dev : Device} {i : Nat} {r : Reading} (ended : Ended port state offset total buffer dev i r)
    (succeeds : port.status (dev.issued.length + i) = 0) : r.read = total :=
  (ended.stops.resolve_right fun fails => fails.2.2 succeeds).1

theorem loopEnds (p : Placed state offset total) {buffer : Mem} {dev : Device} {j : Nat} {r : Reading}
    (holds : Holds port state offset total buffer dev j r) : ∃ fuel i after,
    readLoop a port state offset total fuel r = .ret after ∧ Ended port state offset total buffer dev i after := by
  induction left : total - r.read using Nat.strong_induction_on generalizing j r with
  | _ n ih =>
    by_cases more : r.read < total
    · by_cases succeeds : port.status (dev.issued.length + j) = 0
      · obtain ⟨next,turn,held,further⟩ := turnReads (a := a) p holds more succeeds
        obtain ⟨fuel,i,after,run,ended⟩ := ih (total - next.read) (by omega) held rfl
        refine ⟨fuel + 1,i,after,?_,ended⟩
        rw [readLoop,if_neg (by omega),turn]
        exact run
      · obtain ⟨page,issued,length,turn⟩ := turnFails (a := a) p holds more succeeds
        refine ⟨1,j,⟨r.read,page,r.buffer,r.dev.bytes,issued⟩,?_,holds.read,holds.bytes,holds.buffer,holds.running,
          holds.succeeded,.inr ⟨more,length,succeeds⟩⟩
        rw [readLoop,if_neg (by omega),turn]
        rfl
    · have within : delivered state offset total j ≤ total := Nat.min_le_left _ _
      refine ⟨1,j,r,?_,holds.read,holds.bytes,holds.buffer,holds.running,holds.succeeded,.inl ⟨?_,holds.issued⟩⟩
      · rw [readLoop,if_pos (by omega)]
      · rw [holds.read] at more ⊢
        omega

theorem deliveredMono {i j : Nat} (before : i ≤ j) : delivered state offset total i ≤ delivered state offset total j :=
  min_le_min_left _ (Nat.sub_le_sub_right (Nat.mul_le_mul_right _ before) _)

theorem endedFirst {buffer : Mem} {dev : Device} {i j : Nat} {r : Reading}
    (ended : Ended port state offset total buffer dev i r) (succeed : ∀ k < j, port.status (dev.issued.length + k) = 0)
    (fails : port.status (dev.issued.length + j) ≠ 0) : r.read = delivered state offset total j := by
  obtain less | rfl | more := Nat.lt_trichotomy i j
  · have whole := ended.whole (succeed i less)
    have later : delivered state offset total i ≤ delivered state offset total j := deliveredMono less.le
    have within : delivered state offset total j ≤ total := Nat.min_le_left _ _
    rw [← ended.read] at later
    omega
  · exact ended.read
  · exact absurd (ended.succeeded j more) fails

theorem holdsFirst (fresh : port.fresh.isSome) (buffer : Mem) (dev : Device) :
    Holds port state offset total buffer dev 0 ⟨0,none,buffer,dev⟩ := by
  obtain ⟨data,some⟩ := Option.isSome_iff_exists.mp fresh
  have none : delivered state offset total 0 = 0 := by rw [delivered,Nat.zero_mul,Nat.zero_sub,Nat.min_zero]
  refine ⟨none.symm,.inr (.inl rfl),⟨patch data 0 pageSize zeros,?_⟩,rfl,rfl,(patchNone _ _ _).symm,
    fun i low => absurd low (Nat.not_lt_zero i),fun i low => absurd low (Nat.not_lt_zero i)⟩
  rw [pageOf,some]
  rfl

theorem reachedHolds (p : Placed state offset total) {buffer : Mem} {dev : Device} {start r : Reading}
    (first : Holds port state offset total buffer dev 0 start) (reached : Reached a port state offset total start r) :
    ∃ j, Holds port state offset total buffer dev j r := by
  induction reached with
  | start => exact ⟨0,first⟩
  | turn _ more run ih =>
    obtain ⟨j,holds⟩ := ih
    by_cases succeeds : port.status (dev.issued.length + j) = 0
    · obtain ⟨next,turn,held,_⟩ := turnReads (a := a) p holds more succeeds
      cases turn.symm.trans run
      exact ⟨j + 1,held⟩
    · obtain ⟨page,issued,_,turn⟩ := turnFails (a := a) p holds more succeeds
      cases turn.symm.trans run

/-- A read returns under every pattern of failing commands, with what the commands before
the first failing one delivered, and copies within the page and the buffer only. -/
theorem readsAll {size count : Nat} (p : Placed state offset (size * count)) (fresh : port.fresh.isSome) (buffer : Mem)
    (dev : Device) : Reads a port state buffer size count offset dev := by
  have small : size * count < 2^64 := by
    by_cases empty : size * count = 0
    · omega
    · have last := p.low (show size * count - 1 < size * count by omega)
      omega
  have product : mul64 size count = size * count := mul64Eq small
  have first : Holds port state offset (size * count) buffer dev 0 ⟨0,none,buffer,dev⟩ := holdsFirst fresh buffer dev
  constructor
  · obtain ⟨fuel,i,r,run,ended⟩ := loopEnds (a := a) p first
    refine ⟨fuel,r.read,r.buffer,r.dev,?_,fun k low => ?_,fun k high => ?_,ended.bytes,fun all => ?_,fun j => endedFirst ended⟩
    · rw [readNvmeNamespace,product,run]
      rfl
    · rw [ended.buffer,patchInside (Nat.zero_le _) (by omega),Nat.sub_zero,viewApply]
    · rw [ended.buffer,patchOutside (by omega)]
    · exact ended.whole (all i)
  · intro r reached more
    rw [product] at reached more ⊢
    obtain ⟨j,holds⟩ := reachedHolds p first reached
    have few : share state offset (size * count) r.read ≤ size * count - r.read := shareLe r.read
    rw [windowAt p holds more]
    exact ⟨shareInPage p.paged offset _ r.read,by change r.read + share state offset (size * count) r.read ≤ _; omega⟩

end

theorem readsUntilFailure :
    Reads .standard ⟨fun k => if k = 1 then 6 else 0,some zeros⟩ plainState zeros 3000 2 100 ⟨fun i => i.toUInt8,[]⟩ :=
  readsAll (plainServed (by omega)).placed rfl zeros ⟨fun i => i.toUInt8,[]⟩

end Kdrivers.NvmeRead
