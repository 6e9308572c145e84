import Kdrivers.NvmeRead

/-! The commands that reads and writes of an NVMe namespace issue: where each starts
and how much it transfers. -/
namespace Kdrivers.NvmeCommands
open Bytes NvmeNamespace NvmeRead

structure Writing where
  written : Nat
  page : Option Mem
  dev : Device

def fillPage (port : Port) (state : NamespaceState) (w : Window) (page : Option Mem) (dev : Device) :
    Outcome (Nat × Option Mem × Device) :=
  if w.size < pageSize then namespaceRwPage port false state w.lba page dev else .ret (0,page,dev)

section Loop
variable (a : Align) (port : Port) (state : NamespaceState) (buffer : Mem) (offset total : Nat)

def writeTurn (r : Writing) : Outcome (Bool × Writing) :=
  if state.lbaSize = 0 then .fault .divisionByZero
  else do
    let w := window a state offset total r.written
    let (status,page,dev) ← fillPage port state w r.page r.dev
    if status ≠ 0 then .ret (false,⟨r.written,page,dev⟩)
    else match page with
      | none => .fault .nullPointer
      | some data =>
        let data := patch data w.pageOffset w.size (view buffer r.written)
        let (status,page,dev) ← namespaceRwPage port true state w.lba (some data) dev
        if status ≠ 0 then .ret (false,⟨r.written,page,dev⟩) else .ret (true,⟨add64 r.written w.size,page,dev⟩)

theorem writeLoopTurns (fuel : Nat) (r : Writing) :
    writeLoop a port state buffer offset total (fuel + 1) r.written r.page r.dev =
      if total ≤ r.written then .ret (r.written,r.dev)
      else writeTurn a port state buffer offset total r >>= fun next =>
        if next.1 then writeLoop a port state buffer offset total fuel next.2.written next.2.page next.2.dev
        else .ret (next.2.written,next.2.dev) := by
  rw [writeLoop,writeTurn]
  by_cases done : total ≤ r.written
  · rw [if_pos done,if_pos done]
  rw [if_neg done,if_neg done]
  by_cases none : state.lbaSize = 0
  · rw [if_pos none,if_pos none]
    rfl
  rw [if_neg none,if_neg none]
  have filled (more : Nat × Option Mem × Device → Outcome (Nat × Device)) (w : Window) :
      (if w.size < pageSize then namespaceRwPage port false state w.lba r.page r.dev >>= more
        else .ret (0,r.page,r.dev) >>= more) = fillPage port state w r.page r.dev >>= more := by
    unfold fillPage
    split_ifs <;> rfl
  refine (filled _ _).trans ?_
  rw [Outcome.bindAssoc]
  refine congrArg _ (funext fun answer => ?_)
  obtain ⟨status,page,dev⟩ := answer
  by_cases failed : status ≠ 0
  · simp only [if_pos failed]
    rfl
  simp only [if_neg failed]
  cases page with
  | none => rfl
  | some data =>
    simp only [Outcome.bindAssoc]
    refine congrArg _ (funext fun answer => ?_)
    obtain ⟨status,page,dev⟩ := answer
    by_cases failed : status ≠ 0
    · simp only [if_pos failed]
      rfl
    · simp only [if_neg failed]
      rfl

inductive ReachedWrite (start : Writing) : Writing → Prop where
  | start : ReachedWrite start start
  | turn {r after : Writing} (reached : ReachedWrite start r) (more : r.written < total)
      (run : writeTurn a port state buffer offset total r = .ret (true,after)) : ReachedWrite start after

end Loop

inductive Issues (a : Align) (state : NamespaceState) (offset total : Nat) : Nat → Command → Prop where
  | read {port : Port} {buffer : Mem} {dev : Device} {r after : Reading} {more : Bool} {cmd : Command}
      (reached : Reached a port state offset total ⟨0,none,buffer,dev⟩ r) (left : r.read < total)
      (run : readTurn a port state offset total r = .ret (more,after))
      (new : cmd ∈ after.dev.issued.drop r.dev.issued.length) : Issues a state offset total r.read cmd
  | write {port : Port} {buffer : Mem} {dev : Device} {r after : Writing} {more : Bool} {cmd : Command}
      (reached : ReachedWrite a port state buffer offset total ⟨0,none,dev⟩ r) (left : r.written < total)
      (run : writeTurn a port state buffer offset total r = .ret (more,after))
      (new : cmd ∈ after.dev.issued.drop r.dev.issued.length) : Issues a state offset total r.written cmd

def blockOf (cmd : Command) : Nat := cmd.cdw10 + 2^32 * cmd.cdw11

-- the field counts from zero
def blocks (cmd : Command) : Nat := cmd.cdw12 % 2^16 + 1

def firstBlock (state : NamespaceState) (offset j : Nat) : Nat :=
  offset / state.lbaSize + pageSize / state.lbaSize * j

-- q through an int, as uint64_t
def asInt (q : Nat) : Nat := if q % 2^32 < 2^31 then q % 2^32 else q % 2^32 + (2^64 - 2^32)

section
variable {a : Align} {port : Port} {state : NamespaceState} {offset total : Nat}

theorem asIntEq (q : Nat) : ((BitVec.ofNat 32 q).signExtend 64).toNat = asInt q := by
  rw [BitVec.toNat_signExtend,BitVec.toNat_setWidth,BitVec.toNat_ofNat,asInt]
  have sign : (BitVec.ofNat 32 q).msb = decide (2^31 ≤ q % 2^32) := by
    rw [BitVec.msb_eq_decide,BitVec.toNat_ofNat]
  rw [sign]
  by_cases high : 2^31 ≤ q % 2^32
  · rw [decide_eq_true high,if_neg (Nat.not_lt_of_le high),if_pos rfl]
    omega
  · rw [decide_eq_false high,if_pos (Nat.lt_of_not_le high),if_neg Bool.false_ne_true]
    omega

theorem blockOfPage (write : Bool) (q : Nat) : blockOf (pageCommand write state q) = q := Nat.mod_add_div q _

theorem pageIssues {write : Bool} {q status : Nat} {page held : Option Mem} {dev after : Device}
    (run : namespaceRwPage port write state q page dev = .ret (status,held,after)) :
    after.issued = dev.issued ++ [pageCommand write state q] := by
  have executed (data : Mem) : (execute port state.lbaSize (pageCommand write state q) data dev).2.2.issued =
      dev.issued ++ [pageCommand write state q] := by
    unfold execute
    dsimp only
    split_ifs <;> rfl
  cases page with
  | some data =>
    simp only [namespaceRwPage,Outcome.retBind] at run
    split_ifs at run
    cases run
    exact executed data
  | none =>
    cases fresh : port.fresh with
    | none =>
      rw [pageMissing write q dev fresh] at run
      cases run
    | some data =>
      simp only [namespaceRwPage,fresh,Outcome.retBind] at run
      split_ifs at run
      cases run
      exact executed (patch data 0 pageSize zeros)

theorem readIssues {r after : Reading} {more : Bool} (run : readTurn a port state offset total r = .ret (more,after)) :
    after.dev.issued =
        r.dev.issued ++ [pageCommand false state (window a state offset total r.read).lba] ∧
      (more = true → after.read = add64 r.read (window a state offset total r.read).size) := by
  rw [readTurn] at run
  split_ifs at run
  obtain ⟨⟨status,page,dev⟩,commanded,run⟩ := Outcome.bindRet run
  have issued := pageIssues commanded
  dsimp only at run
  split_ifs at run
  · cases run
    exact ⟨issued,Bool.noConfusion⟩
  · cases page with
    | none => cases run
    | some data =>
      cases run
      exact ⟨issued,fun _ => rfl⟩

theorem fillIssues {w : Window} {status : Nat} {page held : Option Mem} {dev after : Device}
    (run : fillPage port state w page dev = .ret (status,held,after)) : ∃ new, after.issued = dev.issued ++ new ∧
      ∀ cmd ∈ new, cmd = pageCommand false state w.lba := by
  rw [fillPage] at run
  split_ifs at run
  · exact ⟨_,pageIssues run,fun cmd mem => List.mem_singleton.mp mem⟩
  · cases run
    exact ⟨[],(List.append_nil _).symm,nofun⟩

theorem writeIssues {buffer : Mem} {r after : Writing} {more : Bool}
    (run : writeTurn a port state buffer offset total r = .ret (more,after)) :
    (∃ new, after.dev.issued = r.dev.issued ++ new ∧ ∀ cmd ∈ new, ∃ write,
        cmd = pageCommand write state (window a state offset total r.written).lba) ∧
      (more = true → after.written = add64 r.written (window a state offset total r.written).size) := by
  rw [writeTurn] at run
  split_ifs at run
  obtain ⟨⟨status,page,dev⟩,filled,run⟩ := Outcome.bindRet run
  obtain ⟨new,issued,ofPage⟩ := fillIssues filled
  dsimp only at run
  split_ifs at run
  · cases run
    exact ⟨⟨new,issued,fun cmd mem => ⟨false,ofPage cmd mem⟩⟩,Bool.noConfusion⟩
  cases page with
  | none => cases run
  | some data =>
    obtain ⟨⟨status,page,stored⟩,commanded,run⟩ := Outcome.bindRet run
    have last := pageIssues commanded
    have both : ∃ new, stored.issued = r.dev.issued ++ new ∧ ∀ cmd ∈ new, ∃ write,
        cmd = pageCommand write state (window a state offset total r.written).lba := by
      refine ⟨new ++ [_],by rw [last,issued,List.append_assoc],fun cmd mem => ?_⟩
      obtain before | here := List.mem_append.mp mem
      · exact ⟨false,ofPage cmd before⟩
      · exact ⟨true,List.mem_singleton.mp here⟩
    dsimp only at run
    split_ifs at run
    · cases run
      exact ⟨both,Bool.noConfusion⟩
    · cases run
      exact ⟨both,fun _ => rfl⟩

theorem deliveredBelow (p : Paged state) {j : Nat} : delivered state offset total j < total ↔
    0 < total ∧ j * pageSize < offset % state.lbaSize + total := by
  have inside := (Nat.mod_lt offset p.positive).trans_le p.atMost
  have size : pageSize = 4096 := rfl
  unfold delivered
  omega

theorem deliveredAt (p : Paged state) {j : Nat} (left : delivered state offset total j < total) :
    (delivered state offset total j = 0 ∨ (offset + delivered state offset total j) % state.lbaSize = 0) ∧
      (offset + delivered state offset total j) / state.lbaSize = firstBlock state offset j := by
  have parts := Nat.div_add_mod' offset state.lbaSize
  have inside := (Nat.mod_lt offset p.positive).trans_le p.atMost
  have size : pageSize = 4096 := rfl
  have here : delivered state offset total j = j * pageSize - offset % state.lbaSize := by
    unfold delivered at *
    omega
  cases j with
  | zero =>
    rw [here,firstBlock,Nat.zero_mul,Nat.zero_sub]
    exact ⟨.inl rfl,rfl⟩
  | succ j =>
    have pages : firstBlock state offset (j + 1) * state.lbaSize =
        offset / state.lbaSize * state.lbaSize + (j + 1) * pageSize := by
      rw [firstBlock,Nat.add_mul,Nat.mul_right_comm,p.divides,Nat.mul_comm pageSize]
    have sum : offset + delivered state offset total (j + 1) = firstBlock state offset (j + 1) * state.lbaSize := by
      have page : pageSize ≤ (j + 1) * pageSize := Nat.le_mul_of_pos_left _ j.succ_pos
      rw [here,pages]
      omega
    rw [sum]
    exact ⟨.inr (Nat.mul_mod_left _ _),Nat.mul_div_cancel _ p.positive⟩

theorem windowDelivered (p : Paged state) (low : offset < 2^64) (fits : total < 2^64) {j : Nat}
    (left : delivered state offset total j < total) :
    (window a state offset total (delivered state offset total j)).lba = asInt (firstBlock state offset j) ∧
      add64 (delivered state offset total j) (window a state offset total (delivered state offset total j)).size =
        delivered state offset total (j + 1) := by
  obtain ⟨start,first⟩ := deliveredAt p left
  have few : share state offset total (delivered state offset total j) ≤ total - delivered state offset total j :=
    shareLe _
  have within : delivered state offset total j + share state offset total (delivered state offset total j) < 2^64 := by
    omega
  rw [windowInt p low fits left start,deliveredNext p left start,first]
  exact ⟨asIntEq _,add64Eq within⟩

theorem deliveredFirst : delivered state offset total 0 = 0 := by
  rw [delivered,Nat.zero_mul,Nat.zero_sub,Nat.min_zero]

theorem reachedDelivered (p : Paged state) (low : offset < 2^64) (fits : total < 2^64) {start r : Reading}
    (first : start.read = 0) (reached : Reached a port state offset total start r) :
    ∃ j, r.read = delivered state offset total j := by
  induction reached with
  | start => exact ⟨0,by rw [first,deliveredFirst]⟩
  | turn _ more run ih =>
    obtain ⟨j,same⟩ := ih
    rw [same] at more
    refine ⟨j + 1,?_⟩
    rw [(readIssues run).2 rfl,same]
    exact (windowDelivered p low fits more).2

theorem reachedWriteDelivered (p : Paged state) (low : offset < 2^64) (fits : total < 2^64) {buffer : Mem}
    {start r : Writing} (first : start.written = 0) (reached : ReachedWrite a port state buffer offset total start r) :
    ∃ j, r.written = delivered state offset total j := by
  induction reached with
  | start => exact ⟨0,by rw [first,deliveredFirst]⟩
  | turn _ more run ih =>
    obtain ⟨j,same⟩ := ih
    rw [same] at more
    refine ⟨j + 1,?_⟩
    rw [(writeIssues run).2 rfl,same]
    exact (windowDelivered p low fits more).2

/-- Every command of a range is at the page of its turn, the page's block an int. -/
theorem issuesOnly (p : Paged state) (low : offset < 2^64) (fits : total < 2^64) {done : Nat} {cmd : Command}
    (issues : Issues a state offset total done cmd) : ∃ j write, delivered state offset total j < total ∧
      done = delivered state offset total j ∧ cmd = pageCommand write state (asInt (firstBlock state offset j)) := by
  cases issues with
  | read reached left run new =>
    obtain ⟨j,same⟩ := reachedDelivered p low fits rfl reached
    rw [(readIssues run).1,List.drop_left] at new
    rw [same] at left new
    rw [(windowDelivered p low fits left).1] at new
    exact ⟨j,false,left,same,List.mem_singleton.mp new⟩
  | write reached left run new =>
    obtain ⟨j,same⟩ := reachedWriteDelivered p low fits rfl reached
    obtain ⟨⟨list,issued,ofPage⟩,_⟩ := writeIssues run
    rw [issued,List.drop_left] at new
    obtain ⟨write,command⟩ := ofPage _ new
    rw [same] at left command
    rw [(windowDelivered p low fits left).1] at command
    exact ⟨j,write,left,same,command⟩

theorem turnGoesOn (a : Align) (positive : 0 < state.lbaSize) (offset total : Nat) (r : Reading) : ∃ after,
    readTurn a plainPort state offset total r = .ret (true,after) := by
  have served (q : Nat) : ∃ data dev,
      namespaceRwPage plainPort false state q r.page r.dev = .ret (0,some data,dev) := by
    cases r.page with
    | some data =>
      simp only [namespaceRwPage,Outcome.retBind,if_neg positive.ne']
      exact ⟨_,_,rfl⟩
    | none =>
      simp only [namespaceRwPage,plainPort,Outcome.retBind,if_neg positive.ne']
      exact ⟨_,_,rfl⟩
  obtain ⟨data,dev,command⟩ := served (window a state offset total r.read).lba
  rw [readTurn,if_neg positive.ne']
  simp only [command,Outcome.retBind]
  exact ⟨_,rfl⟩

theorem reachesEach (p : Paged state) (low : offset < 2^64) (fits : total < 2^64) (buffer : Mem) (dev : Device)
    {j : Nat} (left : delivered state offset total j < total) : ∃ r,
    Reached a plainPort state offset total ⟨0,none,buffer,dev⟩ r ∧ r.read = delivered state offset total j := by
  induction j with
  | zero => exact ⟨_,.start,deliveredFirst.symm⟩
  | succ j ih =>
    have before : delivered state offset total j < total := (deliveredMono (Nat.le_succ j)).trans_lt left
    obtain ⟨r,reached,same⟩ := ih before
    obtain ⟨after,run⟩ := turnGoesOn a p.positive offset total r
    refine ⟨after,.turn reached (same ▸ before) run,?_⟩
    rw [(readIssues run).2 rfl,same]
    exact (windowDelivered p low fits before).2

theorem issuesEach (p : Paged state) (low : offset < 2^64) (fits : total < 2^64) {j : Nat}
    (left : delivered state offset total j < total) :
    Issues a state offset total (delivered state offset total j)
      (pageCommand false state (asInt (firstBlock state offset j))) := by
  obtain ⟨r,reached,same⟩ := reachesEach (a := a) p low fits zeros ⟨zeros,[]⟩ left
  obtain ⟨after,run⟩ := turnGoesOn a p.positive offset total r
  have new : pageCommand false state (asInt (firstBlock state offset j)) ∈
      after.dev.issued.drop r.dev.issued.length := by
    rw [(readIssues run).1,List.drop_left,same,(windowDelivered p low fits left).1]
    exact List.mem_singleton_self _
  rw [← same] at left ⊢
  exact .read reached left run new

theorem asIntLow {q : Nat} (low : q < 2^31) : asInt q = q := by
  unfold asInt
  split_ifs <;> omega

theorem asIntOnly {q : Nat} (wide : q < 2^63) (same : asInt q = q) : q < 2^31 := by
  unfold asInt at same
  split_ifs at same <;> omega

def lastTurn (state : NamespaceState) (offset total : Nat) : Nat := (offset % state.lbaSize + total - 1) / pageSize

theorem lastBelow (offset : Nat) (p : Paged state) (some : 0 < total) :
    delivered state offset total (lastTurn state offset total) < total := by
  have floor := Nat.div_mul_le_self (offset % state.lbaSize + total - 1) pageSize
  rw [deliveredBelow p,lastTurn]
  omega

theorem lastMost (p : Paged state) {j : Nat} (left : delivered state offset total j < total) :
    j ≤ lastTurn state offset total := by
  have range := (deliveredBelow p).mp left
  exact (Nat.le_div_iff_mul_le (by decide)).mpr (by omega)

theorem firstBlockMono (state : NamespaceState) (offset : Nat) {i j : Nat} (before : i ≤ j) :
    firstBlock state offset i ≤ firstBlock state offset j :=
  Nat.add_le_add_left (Nat.mul_le_mul_left _ before) _

theorem firstBlockLt (p : Paged state) (sector : 512 ≤ state.lbaSize) (low : offset < 2^64) (fits : total < 2^64)
    {j : Nat} (left : delivered state offset total j < total) : firstBlock state offset j < 2^63 :=
  calc firstBlock state offset j
      = (offset + delivered state offset total j) / state.lbaSize := (deliveredAt p left).2.symm
    _ ≤ (offset + delivered state offset total j) / 512 := Nat.div_le_div_left sector (by omega)
    _ < 2^63 := by omega

end

theorem mul64Lt (x y : Nat) : mul64 x y < 2^64 := Nat.mod_lt _ (by omega)

def Addresses (a : Align) (state : NamespaceState) (size count offset : Nat) : Prop :=
  ∀ done cmd, Issues a state offset (mul64 size count) done cmd → blockOf cmd = (offset + done) / state.lbaSize

/-- The commands start where they are to unless the range has a page whose first block is
not an int. -/
theorem addressesIff (a : Align) {state : NamespaceState} {offset : Nat} (size count : Nat)
    (block : state.blockSize = pageSize) (lba : ∃ e, 9 ≤ e ∧ e ≤ 12 ∧ state.lbaSize = 2^e) (low : offset < 2^63) :
    Addresses a state size count offset ↔
      mul64 size count = 0 ∨ firstBlock state offset (lastTurn state offset (mul64 size count)) < 2^31 := by
  obtain ⟨e,large,small,width⟩ := lba
  have p : Paged state := ⟨block,e,small,width⟩
  have sector : 512 ≤ state.lbaSize := by
    rw [width]
    exact Nat.pow_le_pow_right (show 0 < 2 by omega) large
  have fits := mul64Lt size count
  unfold Addresses
  generalize mul64 size count = total at *
  constructor
  · intro addressed
    refine or_iff_not_imp_left.mpr fun some => ?_
    have left := lastBelow offset p (Nat.pos_of_ne_zero some)
    have command := addressed _ _ (issuesEach p (by omega) fits left)
    rw [blockOfPage,(deliveredAt p left).2] at command
    exact asIntOnly (firstBlockLt p sector (by omega) fits left) command
  · intro last done cmd issues
    obtain ⟨j,write,left,rfl,rfl⟩ := issuesOnly p (by omega) fits issues
    have most := firstBlockMono state offset (lastMost p left)
    rw [blockOfPage,(deliveredAt p left).2]
    exact asIntLow (by omega)

theorem nearAddressed : Addresses .standard plainState 3 5000 700 :=
  (addressesIff .standard 3 5000 rfl ⟨9,by omega,by omega,rfl⟩ (by omega)).mpr (.inr (by decide))

theorem farAddress : ¬ ∀ (a : Align) (state : NamespaceState) (size count offset : Nat), state.blockSize = pageSize →
    (∃ e, 9 ≤ e ∧ e ≤ 12 ∧ state.lbaSize = 2^e) → offset < 2^63 → Addresses a state size count offset := by
  intro all
  have p : Paged plainState := ⟨rfl,9,by omega,rfl⟩
  have issued : Issues .standard plainState (2^40) (mul64 1 1) _ _ :=
    issuesEach p (by omega) (by decide) (j := 0) (by decide)
  have command := all .standard plainState 1 1 (2^40) rfl ⟨9,by omega,by omega,rfl⟩ (by omega) _ _ issued
  rw [blockOfPage] at command
  exact absurd command (by decide)

/- A command stays in the namespace, and what it transfers in its page. -/
def Within (nsze : Nat) (state : NamespaceState) (cmd : Command) : Prop :=
  blockOf cmd + blocks cmd ≤ nsze ∧ blocks cmd * state.lbaSize ≤ state.blockSize

def StaysWithin (a : Align) (state : NamespaceState) (nsze size count offset : Nat) : Prop :=
  ∀ done cmd, Issues a state offset (mul64 size count) done cmd → Within nsze state cmd

/- The last page of a range ends in the namespace, as does each page whose first block has
bit 31, which the conversion from an int extends. -/
structure Ends (nsze : Nat) (state : NamespaceState) (offset total : Nat) : Prop where
  last : firstBlock state offset (lastTurn state offset total) < 2^31 →
    firstBlock state offset (lastTurn state offset total) + pageSize / state.lbaSize ≤ nsze
  signed : ∀ j, j * pageSize < offset % state.lbaSize + total → 2^31 ≤ firstBlock state offset j % 2^32 →
    firstBlock state offset j % 2^32 + (2^64 - 2^32) + pageSize / state.lbaSize ≤ nsze

theorem blocksOfPage {state : NamespaceState} (p : Paged state) (write : Bool) (q : Nat) :
    blocks (pageCommand write state q) = pageSize / state.lbaSize :=
  Nat.eq_of_mul_eq_mul_right p.positive (p.length.trans p.divides.symm)

theorem blocksLarge {state : NamespaceState} (large : pageSize < state.lbaSize) (write : Bool) (q : Nat) :
    blocks (pageCommand write state q) = 2^16 := by
  change (pageSize / state.lbaSize + (2^32 - 1)) % 2^32 % 2^16 + 1 = 2^16
  rw [Nat.div_eq_of_lt large]
  rfl

theorem issuesNone {a : Align} {state : NamespaceState} {offset done : Nat} {cmd : Command} :
    ¬ Issues a state offset 0 done cmd := by
  rintro (⟨_,left,_,_⟩ | ⟨_,left,_,_⟩) <;> exact Nat.not_lt_zero _ left

theorem largeOverruns (a : Align) {state : NamespaceState} {offset total : Nat} (block : state.blockSize = pageSize)
    (large : pageSize < state.lbaSize) (some : 0 < total) (nsze : Nat) :
    ¬ ∀ done cmd, Issues a state offset total done cmd → Within nsze state cmd := by
  intro within
  have positive : 0 < state.lbaSize := by omega
  obtain ⟨after,run⟩ := turnGoesOn a positive offset total ⟨0,none,zeros,⟨zeros,[]⟩⟩
  have transfer := (within _ _ (.read .start some run (by rw [(readIssues run).1]; exact List.mem_singleton_self _))).2
  rw [blocksLarge large,block] at transfer
  omega

theorem pageEnds {a : Align} {state : NamespaceState} {offset total nsze : Nat} (p : Paged state) (low : offset < 2^64)
    (fits : total < 2^64) (some : 0 < total)
    (within : ∀ done cmd, Issues a state offset total done cmd → Within nsze state cmd) :
    Ends nsze state offset total := by
  have inside {j : Nat} (left : delivered state offset total j < total) :
      asInt (firstBlock state offset j) + pageSize / state.lbaSize ≤ nsze := by
    have range := (within _ _ (issuesEach p low fits left)).1
    rwa [blockOfPage,blocksOfPage p] at range
  constructor
  · intro near
    have last := inside (lastBelow offset p some)
    rwa [asIntLow near] at last
  · intro j range high
    have page := inside ((deliveredBelow p).mpr ⟨some,range⟩)
    rwa [asInt,if_neg (by omega)] at page

theorem endsPage {a : Align} {state : NamespaceState} {offset total nsze : Nat} (p : Paged state) (low : offset < 2^64)
    (fits : total < 2^64) (some : 0 < total) (inside : offset + total ≤ nsze * state.lbaSize)
    (ends : Ends nsze state offset total) {done : Nat} {cmd : Command} (issues : Issues a state offset total done cmd) :
    Within nsze state cmd := by
  obtain ⟨j,write,left,rfl,rfl⟩ := issuesOnly p low fits issues
  have few : pageSize / state.lbaSize ≤ 4096 := Nat.div_le_self _ _
  have below {i : Nat} (left : delivered state offset total i < total) : firstBlock state offset i < nsze := by
    rw [← (deliveredAt p left).2,Nat.div_lt_iff_lt_mul p.positive]
    omega
  refine ⟨?_,?_⟩
  · rw [blockOfPage,blocksOfPage p]
    have here := below left
    by_cases high : 2^31 ≤ firstBlock state offset j % 2^32
    · rw [asInt,if_neg (by omega)]
      exact ends.signed j ((deliveredBelow p).mp left).2 high
    rw [asInt,if_pos (by omega)]
    by_cases far : 2^32 ≤ firstBlock state offset j
    · omega
    have whole : firstBlock state offset j % 2^32 = firstBlock state offset j := Nat.mod_eq_of_lt (by omega)
    rw [whole] at high ⊢
    by_cases last : j = lastTurn state offset total
    · rw [last] at high ⊢
      exact ends.last (by omega)
    · have next : j + 1 ≤ lastTurn state offset total := Nat.lt_of_le_of_ne (lastMost p left) last
      have rest : firstBlock state offset (j + 1) < nsze :=
        below ((deliveredMono next).trans_lt (lastBelow offset p some))
      have page : firstBlock state offset (j + 1) = firstBlock state offset j + pageSize / state.lbaSize := by
        rw [firstBlock,Nat.mul_succ,← Nat.add_assoc,firstBlock]
      omega
  · rw [blocksOfPage p,p.divides,p.block]

/-- An access inside the namespace stays inside by its commands unless a block is larger
than the page, its last page ends beyond the namespace, or a page starts at a block that
the int turns negative. -/
theorem withinIff (a : Align) {state : NamespaceState} {nsze offset size count : Nat}
    (block : state.blockSize = pageSize) (lba : ∃ e ≤ 30, state.lbaSize = 2^e) (low : offset < 2^63)
    (inside : offset + size * count ≤ nsze * state.lbaSize) :
    StaysWithin a state nsze size count offset ↔
      mul64 size count = 0 ∨ state.lbaSize ≤ pageSize ∧ Ends nsze state offset (mul64 size count) := by
  have fits := mul64Lt size count
  have less : mul64 size count ≤ size * count := Nat.mod_le _ _
  unfold StaysWithin
  generalize mul64 size count = total at *
  obtain rfl | some := Nat.eq_zero_or_pos total
  · exact iff_of_true (fun _ _ issues => absurd issues issuesNone) (.inl rfl)
  by_cases small : state.lbaSize ≤ pageSize
  · have p : Paged state := by
      obtain ⟨e,_,width⟩ := lba
      rw [width] at small
      exact ⟨block,e,(Nat.pow_le_pow_iff_right (show 1 < 2 by omega)).mp small,width⟩
    constructor
    · intro within
      exact .inr ⟨small,pageEnds p (by omega) fits some within⟩
    · intro condition done cmd issues
      exact endsPage p (by omega) fits some (by omega) (condition.resolve_left some.ne').2 issues
  · refine iff_of_false (largeOverruns a block (Nat.lt_of_not_le small) some nsze) ?_
    rintro (rfl | ⟨fits,_⟩)
    · exact Nat.lt_irrefl 0 some
    · exact small fits

theorem startWithin : StaysWithin .standard plainState 2048 1 512 0 := by
  refine (withinIff .standard rfl ⟨9,by omega,rfl⟩ (by omega) (by decide)).mpr (.inr ⟨by decide,?_⟩)
  refine ⟨by decide,fun j range high => ?_⟩
  change j * 4096 < 0 + 512 at range
  obtain rfl : j = 0 := by omega
  exact absurd high (by decide)

theorem lastBlockOutside : ¬ ∀ (a : Align) (state : NamespaceState) (nsze offset size count : Nat),
    state.blockSize = pageSize → (∃ e ≤ 30, state.lbaSize = 2^e) → offset < 2^63 →
      offset + size * count ≤ nsze * state.lbaSize → StaysWithin a state nsze size count offset := by
  intro all
  have within := all .standard plainState 2048 (2047 * 512) 512 1 rfl ⟨9,by omega,rfl⟩ (by omega) (by decide)
  have p : Paged plainState := ⟨rfl,9,by omega,rfl⟩
  have ends := pageEnds p (by omega) (by decide) (by decide) within
  exact absurd (ends.last (by decide)) (by decide)

end Kdrivers.NvmeCommands
