import Kdrivers.ArrayStore
import Kdrivers.NvmeRead
import Kdrivers.PartitionDummy

/-! Partitions on an NVMe namespace (partition_dummy.c over namespace.c), whichever of the
commands fail: every call is that of an array of bytes, cut off where its commands stopped. -/
namespace Kdrivers.NvmeStore
open Bytes NvmeNamespace NvmeRead ArrayStore
open PartitionDummy (PartitionState seekPosition Divided)

section Loops
variable {a : Align} {port : Port} {state : NamespaceState} {offset total : Nat}

def fetch (port : Port) (state : NamespaceState) (w : Window) (page : Option Mem) (dev : Device) :
    Outcome (Nat × Option Mem × Device) :=
  if w.size < pageSize then namespaceRwPage port false state w.lba page dev else .ret (0,page,dev)

def store (port : Port) (state : NamespaceState) (buffer : Mem) (w : Window) (done : Nat) (data : Mem) (dev : Device) :
    Outcome (Nat × Option Mem × Device) :=
  namespaceRwPage port true state w.lba (some (patch data w.pageOffset w.size (view buffer done))) dev

variable (a port offset) in
theorem turnEq (buffer : Mem) {done : Nat} (more : ¬ total ≤ done) (sized : state.lbaSize ≠ 0) (fuel : Nat)
    (page : Option Mem) (dev : Device) : writeLoop a port state buffer offset total (fuel + 1) done page dev =
      (fetch port state (window a state offset total done) page dev >>= fun (status,page,dev) =>
        if status ≠ 0 then .ret (done,dev)
        else match page with
          | none => .fault .nullPointer
          | some data => store port state buffer (window a state offset total done) done data dev >>=
              fun (status,page,dev) => if status ≠ 0 then .ret (done,dev) else
                writeLoop a port state buffer offset total fuel (add64 done (window a state offset total done).size)
                  page dev) := by
  rw [writeLoop,if_neg more,if_neg sized,fetch]
  dsimp only
  by_cases part : (window a state offset total done).size < pageSize
  · rw [if_pos part,if_pos part]
    rfl
  · rw [if_neg part,if_neg part]
    rfl

theorem turnRefused {buffer : Mem} {done : Nat} (more : ¬ total ≤ done) (sized : state.lbaSize ≠ 0) {page held : Option Mem}
    {dev read : Device} {status : Nat}
    (first : fetch port state (window a state offset total done) page dev = .ret (status,held,read)) (failed : status ≠ 0)
    (fuel : Nat) : writeLoop a port state buffer offset total (fuel + 1) done page dev = .ret (done,read) := by
  rw [turnEq a port offset buffer more sized,first,Outcome.retBind]
  exact if_pos failed

theorem turnFetched (buffer : Mem) {done : Nat} (more : ¬ total ≤ done) (sized : state.lbaSize ≠ 0) {page : Option Mem}
    {data : Mem} {dev read : Device}
    (first : fetch port state (window a state offset total done) page dev = .ret (0,some data,read)) (fuel : Nat) :
    writeLoop a port state buffer offset total (fuel + 1) done page dev =
      (store port state buffer (window a state offset total done) done data read >>= fun (status,page,dev) =>
        if status ≠ 0 then .ret (done,dev)
        else writeLoop a port state buffer offset total fuel (add64 done (window a state offset total done).size)
          page dev) := by
  rw [turnEq a port offset buffer more sized,first,Outcome.retBind]
  exact if_neg (not_not.mpr rfl)

variable (a port state offset total) in
theorem turnCases (buffer : Mem) (done : Nat) (page : Option Mem) (dev : Device) :
    (∃ r, ∀ fuel, writeLoop a port state buffer offset total (fuel + 1) done page dev = r) ∨
    ∃ next held after, ∀ fuel, writeLoop a port state buffer offset total (fuel + 1) done page dev =
      writeLoop a port state buffer offset total fuel next held after := by
  by_cases past : total ≤ done
  · exact .inl ⟨_,fun fuel => by rw [writeLoop,if_pos past]⟩
  by_cases sized : state.lbaSize = 0
  · exact .inl ⟨_,fun fuel => by rw [writeLoop,if_neg past,if_pos sized]⟩
  have turn := turnEq a port offset buffer past sized
  cases first : fetch port state (window a state offset total done) page dev with
  | fault f => exact .inl ⟨_,fun fuel => by rw [turn,first,Outcome.faultBind]⟩
  | running => exact .inl ⟨_,fun fuel => by rw [turn,first,Outcome.runningBind]⟩
  | ret fetched =>
    obtain ⟨status,held,read⟩ := fetched
    by_cases failed : status ≠ 0
    · exact .inl ⟨_,turnRefused past sized first failed⟩
    obtain rfl : status = 0 := not_not.mp failed
    cases held with
    | none =>
      refine .inl ⟨.fault .nullPointer,fun fuel => ?_⟩
      rw [turn,first,Outcome.retBind]
      exact if_neg failed
    | some data =>
      have onward (fuel : Nat) := turnFetched (a := a) buffer past sized first fuel
      cases second : store port state buffer (window a state offset total done) done data read with
      | fault f => exact .inl ⟨_,fun fuel => by rw [onward,second,Outcome.faultBind]⟩
      | running => exact .inl ⟨_,fun fuel => by rw [onward,second,Outcome.runningBind]⟩
      | ret stored =>
        obtain ⟨status,held,written⟩ := stored
        by_cases refused : status ≠ 0
        · refine .inl ⟨.ret (done,written),fun fuel => ?_⟩
          rw [onward,second,Outcome.retBind]
          exact if_pos refused
        · refine .inr ⟨add64 done (window a state offset total done).size,held,written,fun fuel => ?_⟩
          rw [onward,second,Outcome.retBind]
          exact if_neg refused

theorem writeMore {buffer : Mem} {fuel done : Nat} {page : Option Mem} {dev : Device} {r : Nat × Device}
    (run : writeLoop a port state buffer offset total fuel done page dev = .ret r) (k : Nat) :
    writeLoop a port state buffer offset total (fuel + k) done page dev = .ret r := by
  induction fuel generalizing done page dev with
  | zero => cases run
  | succ fuel ih =>
    rw [Nat.add_right_comm]
    obtain ⟨_,ends⟩ | ⟨_,_,_,goes⟩ := turnCases a port state offset total buffer done page dev
    · rw [ends] at run ⊢
      exact run
    · rw [goes] at run ⊢
      exact ih run

theorem readMore {fuel : Nat} {r after : Reading} (run : readLoop a port state offset total fuel r = .ret after) (k : Nat) :
    readLoop a port state offset total (fuel + k) r = .ret after := by
  induction fuel generalizing r with
  | zero => cases run
  | succ fuel ih =>
    rw [Nat.add_right_comm]
    unfold readLoop at run ⊢
    split at run
    · rename_i past
      rw [if_pos past]
      exact run
    rename_i more
    rw [if_neg more]
    obtain ⟨⟨again,next⟩,turn,run⟩ := Outcome.bindRet run
    rw [turn,Outcome.retBind]
    cases again with
    | false => exact run
    | true => exact ih run

theorem writePageAt (p : Paged state) (q : Nat) (data : Mem) (dev : Device) (succeeds : port.status dev.issued.length = 0) :
    namespaceRwPage port true state q (some data) dev = .ret (0,some data,
      ⟨patch dev.bytes (q * state.lbaSize) pageSize data,dev.issued ++ [pageCommand true state q]⟩) := by
  have start : q % 2^32 + 2^32 * (q / 2^32) = q := Nat.mod_add_div q _
  refine pageGiven p true q rfl ?_
  simp only [execute,pageCommand,succeeds,p.length,start]
  rfl

def Fetched (state : NamespaceState) (offset total done : Nat) (bytes held : Mem) : Prop := ∀ src,
  patch bytes ((offset + done) / state.lbaSize * state.lbaSize) pageSize
    (patch held ((offset + done) % state.lbaSize) (share state offset total done) src) =
  patch bytes (offset + done) (share state offset total done) src

def Succeed (port : Port) (issued n : Nat) : Prop := ∀ k < n, port.status (issued + k) = 0

theorem succeedNone (port : Port) (issued : Nat) : Succeed port issued 0 := fun k low => absurd low (Nat.not_lt_zero k)

theorem succeedAdd {issued n m : Nat} (first : Succeed port issued n) (later : Succeed port (issued + n) m) :
    Succeed port issued (n + m) := by
  intro k low
  by_cases before : k < n
  · exact first k before
  · have next := later (k - n) (by omega)
    rwa [Nat.add_assoc,Nat.add_sub_cancel' (by omega)] at next

theorem succeedOne {issued : Nat} (succeeds : port.status issued = 0) : Succeed port issued 1 := by
  intro k low
  obtain rfl : k = 0 := by omega
  exact succeeds

/- The commands of a turn of a write before its last: the page is read unless it is written whole. -/
def fills (state : NamespaceState) (offset total done : Nat) : Nat := if share state offset total done < pageSize then 1 else 0

def commandsOf (state : NamespaceState) (write : Bool) (offset total : Nat) : Nat → Nat
  | 0 => 0
  | j+1 => commandsOf state write offset total j +
      (if write then fills state offset total (delivered state offset total j) else 0) + 1

theorem fetchEnds (p : Placed state offset total) {done : Nat} (left : done < total)
    (start : done = 0 ∨ (offset + done) % state.lbaSize = 0) {page : Option Mem}
    (ready : Ready state port offset total done page) (dev : Device) : ∃ held issued,
    (issued.length = dev.issued.length + fills state offset total done ∧
        Succeed port dev.issued.length (fills state offset total done) ∧
        fetch port state (window a state offset total done) page dev = .ret (0,some held,⟨dev.bytes,issued⟩) ∧
        Fetched state offset total done dev.bytes held) ∨
      (fills state offset total done = 1 ∧ issued.length = dev.issued.length + 1 ∧ port.status dev.issued.length ≠ 0 ∧
        fetch port state (window a state offset total done) page dev =
          .ret (port.status dev.issued.length,some held,⟨dev.bytes,issued⟩)) := by
  have place := Nat.div_add_mod' (offset + done) state.lbaSize
  have within := shareInPage p.paged offset total done
  have later (cmd : Command) : (dev.issued ++ [cmd]).length = dev.issued.length + 1 := List.length_append
  rw [fetch,windowEq p left start]
  dsimp only
  by_cases part : share state offset total done < pageSize
  · obtain ⟨held,allocated⟩ := readyPage ready
    have one : fills state offset total done = 1 := if_pos part
    rw [if_pos part,one]
    by_cases succeeds : port.status dev.issued.length = 0
    · refine ⟨_,_,.inl ⟨later _,succeedOne succeeds,readPage p.paged _ allocated succeeds,fun src => ?_⟩⟩
      rw [patchBack within,place]
    · exact ⟨held,_,.inr ⟨rfl,later _,succeeds,pageRefused p.paged false _ allocated succeeds⟩⟩
  · have whole : (offset + done) % state.lbaSize = 0 := by omega
    have all : share state offset total done = pageSize := by omega
    obtain some | ⟨_,less⟩ := ready
    · obtain ⟨held,rfl⟩ := Option.isSome_iff_exists.mp some
      have none : fills state offset total done = 0 := if_neg part
      rw [none]
      refine ⟨held,dev.issued,.inl ⟨rfl,succeedNone port _,if_neg part,fun src => ?_⟩⟩
      rw [whole,Nat.add_zero] at place
      rw [whole,all,patchWhole,place]
    · exact absurd less part

theorem turnStores (p : Placed state offset total) (buffer : Mem) {done : Nat} (left : done < total)
    (start : done = 0 ∨ (offset + done) % state.lbaSize = 0) {page : Option Mem}
    (ready : Ready state port offset total done page) (dev : Device) :
    ∃ n ≤ fills state offset total done, ∃ issued, issued.length = dev.issued.length + n + 1 ∧
    Succeed port dev.issued.length n ∧
    ((port.status (dev.issued.length + n) = 0 ∧ n = fills state offset total done ∧
        ∃ data, ∀ fuel, writeLoop a port state buffer offset total (fuel + 1) done page dev =
          writeLoop a port state buffer offset total fuel (done + share state offset total done) (some data)
            ⟨patch dev.bytes (offset + done) (share state offset total done) (view buffer done),issued⟩) ∨
      (port.status (dev.issued.length + n) ≠ 0 ∧
        ∀ fuel, writeLoop a port state buffer offset total (fuel + 1) done page dev = .ret (done,⟨dev.bytes,issued⟩))) := by
  have next : add64 done (window a state offset total done).size = done + share state offset total done := by
    have less : share state offset total done ≤ total - done := shareLe done
    have last := p.low (show total - 1 < total by omega)
    rw [windowEq p left start]
    dsimp only
    exact add64Eq (by omega)
  obtain ⟨held,issued,⟨length,before,fetched,back⟩ | ⟨one,length,fails,refused⟩⟩ :=
    fetchEnds (a := a) p left start ready dev
  · refine ⟨_,le_rfl,issued ++ [pageCommand true state ((offset + done) / state.lbaSize)],
      by rw [List.length_append,length]; rfl,before,?_⟩
    rw [← length]
    by_cases succeeds : port.status issued.length = 0
    · have stored := writePageAt p.paged ((offset + done) / state.lbaSize)
        (patch held ((offset + done) % state.lbaSize) (share state offset total done) (view buffer done))
        ⟨dev.bytes,issued⟩ succeeds
      rw [back] at stored
      refine .inl ⟨succeeds,rfl,patch held ((offset + done) % state.lbaSize) (share state offset total done) (view buffer done),
        fun fuel => ?_⟩
      rw [turnFetched buffer (Nat.not_le_of_lt left) p.paged.positive.ne' fetched,next,store,windowEq p left start,stored,
        Outcome.retBind]
      exact if_neg (not_not.mpr rfl)
    · have kept : pageOf port (some (patch held ((offset + done) % state.lbaSize) (share state offset total done)
        (view buffer done))) = some _ := rfl
      have fails : port.status (Device.mk dev.bytes issued).issued.length ≠ 0 := succeeds
      have refused := pageRefused p.paged true ((offset + done) / state.lbaSize) kept fails
      refine .inr ⟨succeeds,fun fuel => ?_⟩
      rw [turnFetched buffer (Nat.not_le_of_lt left) p.paged.positive.ne' fetched,store,windowEq p left start,refused,
        Outcome.retBind]
      exact if_pos succeeds
  · exact ⟨0,Nat.zero_le _,issued,length,succeedNone port _,
      .inr ⟨fails,turnRefused (Nat.not_le_of_lt left) p.paged.positive.ne' refused fails⟩⟩

structure Stores (port : Port) (state : NamespaceState) (offset total : Nat) (buffer : Mem) (dev : Device) (j done : Nat)
    (now : Device) : Prop where
  turns : done = delivered state offset total j
  start : done = total ∨ done = 0 ∨ (offset + done) % state.lbaSize = 0
  bytes : now.bytes = patch dev.bytes offset done buffer
  issued : now.issued.length = dev.issued.length + commandsOf state true offset total j
  running : ∀ i < j, delivered state offset total i < total
  succeeded : Succeed port dev.issued.length (commandsOf state true offset total j)

/- How a call ends that came to moved bytes by some turns, and by as many commands from issued on
until it was at its end or one of them failed in the turn after these. -/
structure Ends (port : Port) (state : NamespaceState) (write : Bool) (offset total issued after moved turns commands : Nat) :
    Prop where
  delivered : moved = delivered state offset total turns
  running : ∀ j < turns, NvmeRead.delivered state offset total j < total
  least : commandsOf state write offset total turns ≤ commands
  succeeded : Succeed port issued commands
  stops : moved = total ∧ commands = commandsOf state write offset total turns ∧ after = issued + commands ∨
    moved < total ∧ commands < commandsOf state write offset total (turns + 1) ∧ after = issued + commands + 1 ∧
      port.status (issued + commands) ≠ 0

theorem Ends.few {write : Bool} {issued after moved turns commands : Nat}
    (ends : Ends port state write offset total issued after moved turns commands) : moved ≤ total :=
  ends.delivered ▸ Nat.min_le_left _ _

theorem commandsMono (write : Bool) {i j : Nat} (before : i ≤ j) :
    commandsOf state write offset total i ≤ commandsOf state write offset total j := by
  induction before with
  | refl => exact le_rfl
  | step _ ih =>
    rw [commandsOf]
    omega

theorem Ends.notBefore {write : Bool} {issued after moved turns commands after' moved' turns' commands' : Nat}
    (ends : Ends port state write offset total issued after moved turns commands)
    (other : Ends port state write offset total issued after' moved' turns' commands') : ¬ turns < turns' := by
  intro before
  have running := other.running turns before
  rw [← ends.delivered] at running
  obtain ⟨whole,_⟩ | ⟨_,few,_,fails⟩ := ends.stops
  · exact absurd whole running.ne
  · have more : commandsOf state write offset total (turns + 1) ≤ commandsOf state write offset total turns' :=
      commandsMono write before
    exact fails (other.succeeded commands (by have := other.least; omega))

/-- What a call comes to, and the commands that it issues, are settled by their statuses. -/
theorem endsUnique {write : Bool} {issued after moved turns commands after' moved' turns' commands' : Nat}
    (one : Ends port state write offset total issued after moved turns commands)
    (other : Ends port state write offset total issued after' moved' turns' commands') :
    moved = moved' ∧ after = after' := by
  obtain rfl : turns = turns' := Nat.le_antisymm (Nat.le_of_not_lt (other.notBefore one)) (Nat.le_of_not_lt (one.notBefore other))
  have same : moved = moved' := one.delivered.trans other.delivered.symm
  obtain ⟨whole,all,last⟩ | ⟨part,_,last,fails⟩ := one.stops
  · obtain ⟨_,all',last'⟩ | ⟨part',_⟩ := other.stops
    · exact ⟨same,by omega⟩
    · omega
  · obtain ⟨whole',_⟩ | ⟨_,_,last',fails'⟩ := other.stops
    · omega
    · have first : ¬ commands < commands' := fun less => fails (other.succeeded commands less)
      have second : ¬ commands' < commands := fun less => fails' (one.succeeded commands' less)
      exact ⟨same,by omega⟩

theorem loopStores (p : Placed state offset total) (buffer : Mem) {dev now : Device} {j done : Nat}
    (stores : Stores port state offset total buffer dev j done now) {page : Option Mem}
    (ready : done < total → Ready state port offset total done page) : ∃ fuel moved after turns commands,
    writeLoop a port state buffer offset total fuel done page now = .ret (moved,after) ∧
      after.bytes = patch dev.bytes offset moved buffer ∧
      Ends port state true offset total dev.issued.length after.issued.length moved turns commands := by
  induction left : total - done using Nat.strong_induction_on generalizing j done now page with
  | _ rest ih =>
    by_cases more : done < total
    · have start := stores.start.resolve_left (by omega)
      obtain ⟨m,few,issued,length,before,turn⟩ := turnStores (a := a) p buffer more start (ready more) now
      rw [stores.issued] at length before turn
      rw [Nat.add_assoc dev.issued.length] at turn
      have cost : commandsOf state true offset total (j + 1) =
          commandsOf state true offset total j + fills state offset total done + 1 := by
        rw [commandsOf,if_pos rfl,stores.turns]
      obtain ⟨succeeds,filled,data,goes⟩ | ⟨fails,stops⟩ := turn
      · have some := sharePos p.paged offset more
        have next : Stores port state offset total buffer dev (j + 1) (done + share state offset total done)
            ⟨patch now.bytes (offset + done) (share state offset total done) (view buffer done),issued⟩ := by
          have moved := deliveredNext p.paged (stores.turns ▸ more) (stores.turns ▸ start)
          rw [← stores.turns] at moved
          refine ⟨moved.symm,(startsNext p.paged offset more).imp_right .inr,?_,?_,fun i low => ?_,?_⟩
          · rw [stores.bytes,patchAppend]
          · change issued.length = _
            omega
          · obtain earlier | rfl := Nat.lt_succ_iff_lt_or_eq.mp low
            · exact stores.running i earlier
            · exact stores.turns ▸ more
          · rw [cost,← filled]
            exact succeedAdd (succeedAdd stores.succeeded before) (succeedOne succeeds)
        have held : Ready state port offset total (done + share state offset total done) (Option.some data) := .inl rfl
        obtain ⟨fuel,moved,after,turns,commands,run,ends⟩ := ih _ (by omega) next (fun _ => held) rfl
        exact ⟨fuel + 1,moved,after,turns,commands,(goes fuel).trans run,ends⟩
      · refine ⟨1,done,⟨now.bytes,issued⟩,j,commandsOf state true offset total j + m,stops 0,stores.bytes,stores.turns,
          stores.running,Nat.le_add_right _ _,succeedAdd stores.succeeded before,.inr ⟨more,by omega,?_,fails⟩⟩
        change issued.length = _
        omega
    · refine ⟨1,done,now,j,commandsOf state true offset total j,by rw [writeLoop,if_pos (Nat.le_of_not_lt more)],stores.bytes,
        stores.turns,stores.running,le_rfl,stores.succeeded,.inl ⟨?_,rfl,stores.issued⟩⟩
      have within : delivered state offset total j ≤ total := Nat.min_le_left _ _
      rw [← stores.turns] at within
      omega

theorem readCommands (state : NamespaceState) (offset total j : Nat) : commandsOf state false offset total j = j := by
  induction j with
  | zero => rfl
  | succ j ih =>
    rw [commandsOf,ih]
    rfl

theorem deliveredNone (state : NamespaceState) (offset total : Nat) : delivered state offset total 0 = 0 := by
  rw [delivered,Nat.zero_mul,Nat.zero_sub,Nat.min_zero]

theorem placedSmall (p : Placed state offset total) : total < 2^64 := by
  by_cases empty : total = 0
  · omega
  · have last := p.low (show total - 1 < total by omega)
    omega

end Loops

/-- Whichever commands fail, a write whose first page is not a whole one at a block stores
the bytes of its first turns, up to the failing one, and changes no other byte. -/
theorem writeStops {a : Align} {port : Port} {state : NamespaceState} {size count offset : Nat}
    (p : Placed state offset (size * count)) (fresh : port.fresh.isSome)
    (part : offset % state.lbaSize ≠ 0 ∨ size * count < pageSize) (buffer : Mem) (dev : Device) : ∃ n after turns commands,
    Returns (fun fuel => writeNvmeNamespace a port state buffer size count offset fuel dev) (n,after) ∧
      after.bytes = patch dev.bytes offset n buffer ∧
      Ends port state true offset (size * count) dev.issued.length after.issued.length n turns commands := by
  have inside := (Nat.mod_lt offset p.paged.positive).trans_le p.paged.atMost
  have ready : Ready state port offset (size * count) 0 none := by
    refine .inr ⟨fresh,?_⟩
    rw [share,Nat.add_zero,Nat.sub_zero]
    omega
  have first : Stores port state offset (size * count) buffer dev 0 0 dev :=
    ⟨(deliveredNone _ _ _).symm,.inr (.inl rfl),(patchNone _ _ _).symm,rfl,fun i low => absurd low (Nat.not_lt_zero i),
      succeedNone port _⟩
  obtain ⟨enough,n,after,turns,commands,run,bytes,ends⟩ := loopStores (a := a) p buffer first fun _ => ready
  refine ⟨n,after,turns,commands,⟨enough,fun fuel more => ?_⟩,bytes,ends⟩
  obtain ⟨k,rfl⟩ := Nat.exists_eq_add_of_le more
  dsimp only
  rw [writeNvmeNamespace,mul64Eq (placedSmall p)]
  exact writeMore run k

theorem readStops {a : Align} {port : Port} {state : NamespaceState} {size count offset : Nat}
    (p : Placed state offset (size * count)) (fresh : port.fresh.isSome) (buffer : Mem) (dev : Device) :
    ∃ n after turns commands,
    Returns (fun fuel => readNvmeNamespace a port state buffer size count offset fuel dev)
      (n,patch buffer 0 n (view dev.bytes offset),after) ∧ after.bytes = dev.bytes ∧
      Ends port state false offset (size * count) dev.issued.length after.issued.length n turns commands := by
  have first : Holds port state offset (size * count) buffer dev 0 ⟨0,none,buffer,dev⟩ := holdsFirst fresh buffer dev
  obtain ⟨enough,i,r,run,ended⟩ := loopEnds (a := a) p first
  have stops := ended.stops
  refine ⟨r.read,r.dev,i,i,⟨enough,fun fuel more => ?_⟩,ended.bytes,ended.read,ended.running,(readCommands ..).le,
    ended.succeeded,stops.imp (fun whole => ⟨whole.1,(readCommands ..).symm,whole.2⟩)
      fun part => ⟨part.1,(readCommands ..).symm ▸ Nat.lt_succ_self i,part.2⟩⟩
  obtain ⟨k,rfl⟩ := Nat.exists_eq_add_of_le more
  dsimp only
  rw [readNvmeNamespace,mul64Eq (placedSmall p),readMore run k]
  exact congrArg (fun out => Outcome.ret (r.read,out,r.dev)) ended.buffer

section Partitions
variable (a : Align) (port : Port) (drive : NamespaceState)

def readPartitionDummy (state : PartitionState) (buffer : Mem) (size count offset fuel : Nat) (dev : Device) :
    Outcome (Nat × Mem × Device) :=
  if size = 0 ∨ count = 0 then .ret (0,buffer,dev)
  else readNvmeNamespace a port drive buffer size count (seekPosition state offset) fuel dev

def writePartitionDummy (state : PartitionState) (buffer : Mem) (size count offset fuel : Nat) (dev : Device) :
    Outcome (Nat × Device) :=
  if size = 0 ∨ count = 0 then .ret (0,dev)
  else writeNvmeNamespace a port drive buffer size count (seekPosition state offset) fuel dev

structure DriveCall (ι : Type) where
  partition : ι
  write : Bool
  size : Nat
  count : Nat
  offset : Nat
  buffer : Mem

variable {ι : Type} [DecidableEq ι]

def DriveCall.run (states : ι → PartitionState) (fuel : Nat) (c : DriveCall ι) (dev : Device) : Outcome (Answer × Device) :=
  if c.write then
    (writePartitionDummy a port drive (states c.partition) c.buffer c.size c.count c.offset fuel dev).map
      fun (n,dev) => (⟨n,c.buffer⟩,dev)
  else
    (readPartitionDummy a port drive (states c.partition) c.buffer c.size c.count c.offset fuel dev).map
      fun (n,out,dev) => (⟨n,out⟩,dev)

def extent (states : ι → PartitionState) (i : ι) : Nat := (states i).sizeInLbas * (states i).lbaSize

def place (states : ι → PartitionState) (i : ι) (k : Nat) : Option Nat :=
  some ((states i).startLba * (states i).lbaSize + k)

structure Drive (states : ι → PartitionState) : Prop where
  paged : Paged drive
  fresh : port.fresh.isSome
  divided : Divided states
  near : ∀ i, (states i).startLba * (states i).lbaSize + extent states i ≤ 2^31 * drive.lbaSize

/- A call inside its partition. A write of a whole page at a block finds no page. -/
structure DriveCall.Inside (states : ι → PartitionState) (c : DriveCall ι) : Prop where
  range : c.offset + c.size * c.count ≤ extent states c.partition
  part : c.write = true → ((states c.partition).startLba * (states c.partition).lbaSize + c.offset) % drive.lbaSize ≠ 0 ∨
    c.size * c.count < pageSize

structure Means (states : ι → PartitionState) (issued : Nat) (c : DriveCall ι) (d : Call ι) (after : Nat) : Prop where
  call : d = ⟨c.partition,c.write,c.offset,d.length,c.buffer⟩
  ends : ∃ turns commands, Ends port drive c.write
    ((states c.partition).startLba * (states c.partition).lbaSize + c.offset) (c.size * c.count) issued after d.length
    turns commands

variable {a port drive} {states : ι → PartitionState}

omit [DecidableEq ι] in
theorem seekInside (d : Drive port drive states) {c : DriveCall ι} (inside : c.Inside drive states)
    (some : 0 < c.size * c.count) : seekPosition (states c.partition) c.offset =
      (states c.partition).startLba * (states c.partition).lbaSize + c.offset := by
  have near := d.near c.partition
  have range := inside.range
  have small := d.paged.atMost
  have page : pageSize = 4096 := rfl
  have base : mul64 (states c.partition).startLba (states c.partition).lbaSize =
      (states c.partition).startLba * (states c.partition).lbaSize := mul64Eq (by omega)
  rw [seekPosition,base,add64,Nat.add_comm]
  exact Nat.mod_eq_of_lt (by omega)

omit [DecidableEq ι] in
theorem placedCall (d : Drive port drive states) {c : DriveCall ι} (inside : c.Inside drive states) :
    Placed drive ((states c.partition).startLba * (states c.partition).lbaSize + c.offset) (c.size * c.count) := by
  refine ⟨d.paged.block,d.paged.lba,fun i low => ?_⟩
  have near := d.near c.partition
  have range := inside.range
  exact (Nat.div_lt_iff_lt_mul d.paged.positive).mpr (by omega)

omit [DecidableEq ι] in
theorem partitionsUnshared (d : Drive port drive states) {i : ι} {pos n : Nat} (inside : pos + n ≤ extent states i) :
    Unshared (place states) (extent states) i pos n := by
  intro k low j l a bound here there
  cases here
  have same := Option.some.inj there
  have own (i : ι) (k : Nat) (low : k < extent states i) :
      PartitionDummy.Within (states i) ((states i).startLba * (states i).lbaSize + k) := by
    unfold PartitionDummy.Within
    rw [Nat.add_mul]
    exact ⟨Nat.le_add_right _ _,Nat.add_lt_add_left low _⟩
  have one : i = j := by
    by_contra differ
    have first := own i (pos + k) (by omega)
    rw [← same] at first
    exact PartitionDummy.dividedApart d.divided i j differ _ first (own j l bound)
  subst one
  exact ⟨rfl,by omega⟩

omit [DecidableEq ι] in
theorem patchPut (states : ι → PartitionState) (i : ι) (offset n : Nat) (bytes m : Mem) : Put (place states) i offset n bytes m
    (patch m ((states i).startLba * (states i).lbaSize + offset) n bytes) := by
  intro a
  by_cases inside : (states i).startLba * (states i).lbaSize + offset ≤ a ∧
      a < (states i).startLba * (states i).lbaSize + offset + n
  · refine .inl ⟨a - ((states i).startLba * (states i).lbaSize + offset),by omega,congrArg some (by omega),?_⟩
    exact patchInside inside.1 inside.2
  · refine .inr ⟨fun k low here => ?_,patchOutside (by omega)⟩
    have := Option.some.inj here
    omega

omit [DecidableEq ι] in
theorem noneEnds (write : Bool) (offset : Nat) {total issued : Nat} (zero : total = 0) :
    Ends port drive write offset total issued issued 0 0 0 :=
  ⟨(deliveredNone _ _ _).symm,fun j low => absurd low (Nat.not_lt_zero j),le_rfl,succeedNone port _,.inl ⟨zero.symm,rfl,rfl⟩⟩

omit [DecidableEq ι] in
theorem writesCall (d : Drive port drive states) {c : DriveCall ι} (inside : c.Inside drive states) (write : c.write = true)
    (dev : Device) : ∃ n after turns commands,
      Returns (fun fuel => c.run a port drive states fuel dev) (⟨n,c.buffer⟩,after) ∧
      after.bytes = patch dev.bytes ((states c.partition).startLba * (states c.partition).lbaSize + c.offset) n c.buffer ∧
      Ends port drive c.write ((states c.partition).startLba * (states c.partition).lbaSize + c.offset) (c.size * c.count)
        dev.issued.length after.issued.length n turns commands := by
  have run (fuel : Nat) : c.run a port drive states fuel dev = (writePartitionDummy a port drive (states c.partition)
      c.buffer c.size c.count c.offset fuel dev).map fun (n,dev) => (⟨n,c.buffer⟩,dev) := if_pos write
  simp only [run,writePartitionDummy]
  by_cases none : c.size = 0 ∨ c.count = 0
  · refine ⟨0,dev,0,0,⟨0,fun fuel _ => ?_⟩,(patchNone _ _ _).symm,noneEnds _ _ (by simpa using none)⟩
    dsimp only
    rw [if_pos none]
    rfl
  · have some : 0 < c.size * c.count := Nat.pos_of_ne_zero (by simpa using none)
    obtain ⟨n,after,turns,commands,returns,bytes,ends⟩ :=
      writeStops (a := a) (placedCall d inside) d.fresh (inside.part write) c.buffer dev
    simp only [if_neg none,seekInside d inside some]
    exact ⟨n,after,turns,commands,returnsMap _ returns,bytes,by rw [write]; exact ends⟩

omit [DecidableEq ι] in
theorem readsCall (d : Drive port drive states) {c : DriveCall ι} (inside : c.Inside drive states) (read : c.write = false)
    (dev : Device) : ∃ n after turns commands, Returns (fun fuel => c.run a port drive states fuel dev) (⟨n,patch c.buffer 0 n
        (view dev.bytes ((states c.partition).startLba * (states c.partition).lbaSize + c.offset))⟩,after) ∧
      after.bytes = dev.bytes ∧
      Ends port drive c.write ((states c.partition).startLba * (states c.partition).lbaSize + c.offset) (c.size * c.count)
        dev.issued.length after.issued.length n turns commands := by
  have run (fuel : Nat) : c.run a port drive states fuel dev = (readPartitionDummy a port drive (states c.partition)
      c.buffer c.size c.count c.offset fuel dev).map fun (n,out,dev) => (⟨n,out⟩,dev) := if_neg (by simp [read])
  simp only [run,readPartitionDummy]
  by_cases none : c.size = 0 ∨ c.count = 0
  · refine ⟨0,dev,0,0,⟨0,fun fuel _ => ?_⟩,rfl,noneEnds _ _ (by simpa using none)⟩
    dsimp only
    rw [if_pos none,patchNone]
    rfl
  · have some : 0 < c.size * c.count := Nat.pos_of_ne_zero (by simpa using none)
    obtain ⟨n,after,turns,commands,returns,kept,ends⟩ := readStops (a := a) (placedCall d inside) d.fresh c.buffer dev
    simp only [if_neg none,seekInside d inside some]
    exact ⟨n,after,turns,commands,returnsMap _ returns,kept,by rw [read]; exact ends⟩

theorem driveStep (d : Drive port drive states) {start : Mem} {dev : Device} {arrays : ι → Mem}
    (holds : ArrayStore.Holds (place states) (extent states) start dev.bytes arrays) {c : DriveCall ι}
    (inside : c.Inside drive states) : ∃ meant after,
      Means port drive states dev.issued.length c meant after.issued.length ∧
      Returns (fun fuel => c.run a port drive states fuel dev) ((meant.on arrays).1,after) ∧
      ArrayStore.Holds (place states) (extent states) start after.bytes (meant.on arrays).2 := by
  have range := inside.range
  cases write : c.write with
  | true =>
    obtain ⟨n,after,turns,commands,run,bytes,ends⟩ := writesCall (a := a) d inside write dev
    have few : c.offset + n ≤ extent states c.partition := by
      have less := ends.few
      omega
    refine ⟨⟨c.partition,true,c.offset,n,c.buffer⟩,after,⟨by rw [write],turns,commands,ends⟩,run,?_⟩
    have put := patchPut states c.partition c.offset n c.buffer dev.bytes
    rw [← bytes] at put
    exact putHolds (fun _ _ _ => rfl) holds few (partitionsUnshared d few) put
  | false =>
    obtain ⟨n,after,turns,commands,run,kept,ends⟩ := readsCall (a := a) d inside write dev
    have bytes : patch c.buffer 0 n (view dev.bytes ((states c.partition).startLba * (states c.partition).lbaSize +
        c.offset)) = patch c.buffer 0 n (view (arrays c.partition) c.offset) := by
      refine patchCongr fun k low => ?_
      have less := ends.few
      rw [viewApply,viewApply,← holds.cells c.partition (c.offset + k) (by omega),Nat.add_assoc]
      rfl
    rw [bytes] at run
    refine ⟨⟨c.partition,false,c.offset,n,c.buffer⟩,after,⟨by rw [write],turns,commands,ends⟩,run,?_⟩
    rw [kept]
    exact holds

end Partitions

def pages (second : Bool) : PartitionState := ⟨0,if second then 8 else 0,8,512,0⟩
def failingPort : Port := ⟨fun k => if k = 1 then 6 else 0,some zeros⟩
def pageCalls : List (DriveCall Bool) :=
  [⟨false,true,4,25,512,fun _ => 1⟩,⟨false,true,1,9,7,fun _ => 2⟩,⟨true,false,1,64,0,zeros⟩]

theorem pagesDrive : Drive failingPort plainState pages := by
  refine ⟨⟨rfl,9,by omega,rfl⟩,rfl,⟨fun _ _ => rfl,fun i j differ b lower upper both => ?_⟩,fun i => by cases i <;> decide⟩
  cases i <;> cases j <;> simp [pages] at differ lower upper both
  · omega
  · omega

end Kdrivers.NvmeStore
