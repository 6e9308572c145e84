import Kdrivers.NvmeCommands
import Kdrivers.Processes

/-! Reads and writes of one NVMe namespace by several processors (namespace.c). Each has its
own page and queue pair, and no lock is held: one command is a turn. -/
namespace Kdrivers.NvmeProcessors
open Bytes Processes NvmeNamespace NvmeRead NvmeCommands

def transfers (lbaSize : Nat) (cmd : Command) (x : Nat) : Prop :=
  (cmd.cdw10 + 2^32 * cmd.cdw11) * lbaSize ≤ x ∧ x < (cmd.cdw10 + 2^32 * cmd.cdw11) * lbaSize + blocks cmd * lbaSize

theorem executeKept {port : Port} {lbaSize : Nat} {cmd : Command} {data : Mem} {dev : Device} {x : Nat}
    (other : ¬ (cmd.opcode = 1 ∧ transfers lbaSize cmd x)) :
    (execute port lbaSize cmd data dev).2.2.bytes x = dev.bytes x := by
  unfold execute
  dsimp only
  split_ifs with failed write
  · rfl
  · exact if_neg fun inside => other ⟨write,inside⟩
  · rfl

theorem executeSame (port : Port) {lbaSize : Nat} {cmd : Command} {data s t : Mem} {issued : List Command}
    (same : ∀ x, transfers lbaSize cmd x → s x = t x) :
    (execute port lbaSize cmd data ⟨s,issued⟩).1 = (execute port lbaSize cmd data ⟨t,issued⟩).1 ∧
      (execute port lbaSize cmd data ⟨s,issued⟩).2.1 = (execute port lbaSize cmd data ⟨t,issued⟩).2.1 ∧
      ∀ x, transfers lbaSize cmd x → (execute port lbaSize cmd data ⟨s,issued⟩).2.2.bytes x =
        (execute port lbaSize cmd data ⟨t,issued⟩).2.2.bytes x := by
  unfold execute
  dsimp only
  split_ifs
  · exact ⟨rfl,rfl,same⟩
  · refine ⟨rfl,rfl,fun x inside => ?_⟩
    exact (patchInside inside.1 inside.2).trans (patchInside inside.1 inside.2).symm
  · refine ⟨rfl,patchCongr fun i low => ?_,same⟩
    exact same _ ⟨Nat.le_add_right _ _,Nat.add_lt_add_left low _⟩

def service (lbaSize : Nat) : Service (Command × Mem) (Nat × Mem) Nat Nat UInt8 where
  serve q status bytes :=
    let (answer,data,dev) := execute ⟨fun _ => status,none⟩ lbaSize q.1 q.2 ⟨bytes,[]⟩
    ((answer,data),dev.bytes)
  looks q x := q.1.opcode ≠ 1 ∧ transfers lbaSize q.1 x
  changes q x := q.1.opcode = 1 ∧ transfers lbaSize q.1 x
  kept _ _ _ _ other := executeKept other
  same q _ _ _ same := by
    obtain ⟨status,data,bytes⟩ := executeSame ⟨fun _ => _,none⟩ fun x inside => same x (by
      by_cases write : q.1.opcode = 1
      · exact .inr ⟨write,inside⟩
      · exact .inl ⟨write,inside⟩)
    exact ⟨Prod.ext status data,fun x inside => bytes x inside.2⟩

abbrev Caller := Process (Command × Mem) (Nat × Mem) (Outcome (Nat × Mem))

def rwPage (write : Bool) (state : NamespaceState) (bstart : Nat) (fresh page : Option Mem)
    (next : Nat → Mem → Caller) : Caller :=
  match page,fresh with
  | some data,_ => command data
  | none,some data => command (patch data 0 pageSize zeros)
  | none,none => .done (.fault .nullPointer)
where
  command (data : Mem) : Caller :=
    if state.lbaSize = 0 then .done (.fault .divisionByZero)
    else .access (pageCommand write state bstart,data) fun answer => next answer.1 answer.2

section
variable (a : Align) (state : NamespaceState) (fresh : Option Mem) (offset total : Nat)

def reading : Nat → Nat → Option Mem → Mem → Caller
  | 0,_,_,_ => .done .running
  | fuel+1,read,page,buffer =>
    if total ≤ read then .done (.ret (read,buffer))
    else if state.lbaSize = 0 then .done (.fault .divisionByZero)
    else
      let w := window a state offset total read
      rwPage false state w.lba fresh page fun status data =>
        if status ≠ 0 then .done (.ret (read,buffer))
        else reading fuel (add64 read w.size) (some data) (patch buffer read w.size (view data w.pageOffset))

variable (buffer : Mem)

def writing : Nat → Nat → Option Mem → Caller
  | 0,_,_ => .done .running
  | fuel+1,written,page =>
    if total ≤ written then .done (.ret (written,buffer))
    else if state.lbaSize = 0 then .done (.fault .divisionByZero)
    else
      let w := window a state offset total written
      let store (data : Mem) : Caller :=
        rwPage true state w.lba fresh (some (patch data w.pageOffset w.size (view buffer written))) fun status data =>
          if status ≠ 0 then .done (.ret (written,buffer)) else writing fuel (add64 written w.size) (some data)
      if w.size < pageSize then
        rwPage false state w.lba fresh page fun status data =>
          if status ≠ 0 then .done (.ret (written,buffer)) else store data
      else match page with
        | none => .done (.fault .nullPointer)
        | some data => store data

end

structure Call where
  write : Bool
  fresh : Option Mem
  buffer : Mem
  size : Nat
  count : Nat
  offset : Nat

def Call.run (a : Align) (state : NamespaceState) (c : Call) (fuel : Nat) (statuses : List Nat) (bytes : Mem) :
    Outcome (Nat × Mem × Mem) :=
  let port : Port := ⟨fun k => statuses.getD k 0,c.fresh⟩
  if c.write then
    (writeNvmeNamespace a port state c.buffer c.size c.count c.offset fuel ⟨bytes,[]⟩).map fun (n,dev) =>
      (n,c.buffer,dev.bytes)
  else
    (readNvmeNamespace a port state c.buffer c.size c.count c.offset fuel ⟨bytes,[]⟩).map fun (n,out,dev) =>
      (n,out,dev.bytes)

def Call.caller (a : Align) (state : NamespaceState) (c : Call) (fuel : Nat) : Caller :=
  if c.write then writing a state c.fresh c.offset (mul64 c.size c.count) c.buffer fuel 0 none
  else reading a state c.fresh c.offset (mul64 c.size c.count) fuel 0 none c.buffer

def covered (state : NamespaceState) (offset total x : Nat) : Prop := ∃ j, delivered state offset total j < total ∧
  asInt (firstBlock state offset j) * state.lbaSize ≤ x ∧ x < asInt (firstBlock state offset j) * state.lbaSize + pageSize

def Call.covers (state : NamespaceState) (c : Call) (x : Nat) : Prop := covered state c.offset (mul64 c.size c.count) x

def Answers (port : Port) (dev : Device) (cs : List Nat) : Prop :=
  ∀ k c, cs[k]? = some c → port.status (dev.issued.length + k) = c

section
variable {a : Align} {port : Port} {state : NamespaceState} {offset total : Nat} {cs : List Nat}
  {out : Outcome (Nat × Mem)} {store : Mem}

theorem commandAlone {write : Bool} {q : Nat} {next : Nat → Mem → Caller} {dev : Device} {data : Mem}
    (positive : 0 < state.lbaSize) (answers : Answers port dev cs)
    (run : alone (service state.lbaSize) cs (rwPage.command write state q next data) dev.bytes = (.done out,store)) :
    ∃ rest status held after, execute port state.lbaSize (pageCommand write state q) data dev = (status,held,after) ∧
      Answers port after rest ∧ alone (service state.lbaSize) rest (next status held) after.bytes = (.done out,store) := by
  rw [rwPage.command,if_neg positive.ne'] at run
  cases cs with
  | nil => cases run
  | cons c rest =>
    have here : port.status dev.issued.length = c := answers 0 c rfl
    have served : execute port state.lbaSize (pageCommand write state q) data dev =
        (((service state.lbaSize).serve (pageCommand write state q,data) c dev.bytes).1.1,
          ((service state.lbaSize).serve (pageCommand write state q,data) c dev.bytes).1.2,
          ⟨((service state.lbaSize).serve (pageCommand write state q,data) c dev.bytes).2,
            dev.issued ++ [pageCommand write state q]⟩) := by
      simp only [service,execute,here]
      split_ifs <;> rfl
    refine ⟨rest,_,_,_,served,fun k d at' => ?_,run⟩
    have later := answers (k + 1) d at'
    rwa [List.length_append,List.length_singleton,Nat.add_assoc,Nat.add_comm 1 k]

theorem rwPageAlone {write : Bool} {q : Nat} {page : Option Mem} {next : Nat → Mem → Caller} {dev : Device}
    (positive : 0 < state.lbaSize) (answers : Answers port dev cs)
    (run : alone (service state.lbaSize) cs (rwPage write state q port.fresh page next) dev.bytes = (.done out,store)) :
    (namespaceRwPage port write state q page dev = .fault .nullPointer ∧ out = .fault .nullPointer) ∨
      ∃ rest status held after, namespaceRwPage port write state q page dev = .ret (status,some held,after) ∧
        Answers port after rest ∧ alone (service state.lbaSize) rest (next status held) after.bytes = (.done out,store) := by
  cases page with
  | some data =>
    obtain ⟨rest,status,held,after,executed,later,further⟩ := commandAlone positive answers run
    refine .inr ⟨rest,status,held,after,?_,later,further⟩
    simp only [namespaceRwPage,Outcome.retBind,if_neg positive.ne',executed]
  | none =>
    cases fresh : port.fresh with
    | none =>
      rw [fresh,rwPage,aloneDone] at run
      cases run
      exact .inl ⟨pageMissing write q dev fresh,rfl⟩
    | some data =>
      rw [fresh] at run
      obtain ⟨rest,status,held,after,executed,later,further⟩ := commandAlone positive answers run
      refine .inr ⟨rest,status,held,after,?_,later,further⟩
      simp only [namespaceRwPage,fresh,Outcome.retBind,if_neg positive.ne',executed]

theorem turnAlone {write : Bool} {q : Nat} {page : Option Mem} {ended : Nat × Mem} {next : Mem → Caller} {dev : Device}
    (positive : 0 < state.lbaSize) (answers : Answers port dev cs)
    (run : alone (service state.lbaSize) cs (rwPage write state q port.fresh page fun status data =>
      if status ≠ 0 then .done (.ret ended) else next data) dev.bytes = (.done out,store)) :
    (namespaceRwPage port write state q page dev = .fault .nullPointer ∧ out = .fault .nullPointer) ∨
      (∃ status held after, namespaceRwPage port write state q page dev = .ret (status,some held,after) ∧ status ≠ 0 ∧
        out = .ret ended ∧ after.bytes = store) ∨
      ∃ rest held after, namespaceRwPage port write state q page dev = .ret (0,some held,after) ∧
        Answers port after rest ∧ alone (service state.lbaSize) rest (next held) after.bytes = (.done out,store) := by
  obtain none | ⟨rest,status,held,after,commanded,later,further⟩ := rwPageAlone positive answers run
  · exact .inl none
  · by_cases failed : status ≠ 0
    · rw [if_pos failed,aloneDone] at further
      cases further
      exact .inr (.inl ⟨status,held,after,commanded,failed,rfl,rfl⟩)
    · rw [if_neg failed] at further
      obtain rfl := not_not.mp failed
      exact .inr (.inr ⟨rest,held,after,commanded,later,further⟩)

theorem readingAlone (positive : 0 < state.lbaSize) {fuel : Nat} {r : Reading} (answers : Answers port r.dev cs)
    (run : alone (service state.lbaSize) cs (reading a state port.fresh offset total fuel r.read r.page r.buffer)
      r.dev.bytes = (.done out,store)) :
    (readLoop a port state offset total fuel r).map (fun r => (r.read,r.buffer,r.dev.bytes)) =
      out.map fun (n,buffer) => (n,buffer,store) := by
  induction fuel generalizing r cs with
  | zero =>
    rw [reading,aloneDone] at run
    cases run
    rfl
  | succ fuel ih =>
    rw [reading,if_neg positive.ne'] at run
    rw [readLoop]
    by_cases done : total ≤ r.read
    · rw [if_pos done,aloneDone] at run
      cases run
      rw [if_pos done]
      rfl
    rw [if_neg done] at run
    rw [if_neg done,readTurn,if_neg positive.ne']
    obtain ⟨faults,rfl⟩ | ⟨status,held,after,commanded,failed,rfl,rfl⟩ | ⟨rest,held,after,commanded,later,further⟩ :=
      turnAlone positive answers run
    · simp only [faults]
      rfl
    · simp only [commanded,Outcome.retBind,if_pos failed]
      rfl
    · simp only [commanded,Outcome.retBind]
      exact ih (r := ⟨_,some held,_,after⟩) later further

theorem writingAlone (positive : 0 < state.lbaSize) {buffer : Mem} {fuel written : Nat} {page : Option Mem}
    {dev : Device} (answers : Answers port dev cs)
    (run : alone (service state.lbaSize) cs (writing a state port.fresh offset total buffer fuel written page)
      dev.bytes = (.done out,store)) :
    (writeLoop a port state buffer offset total fuel written page dev).map (fun (n,dev) => (n,buffer,dev.bytes)) =
      out.map fun (n,buffer) => (n,buffer,store) := by
  induction fuel generalizing written page dev cs with
  | zero =>
    rw [writing,aloneDone] at run
    cases run
    rfl
  | succ fuel ih =>
    rw [writing,if_neg positive.ne'] at run
    rw [writeLoop]
    by_cases done : total ≤ written
    · rw [if_pos done,aloneDone] at run
      cases run
      rw [if_pos done]
      rfl
    rw [if_neg done] at run
    rw [if_neg done,if_neg positive.ne']
    -- the second half of a turn, after either way to get a page
    have stored {cs : List Nat} {dev : Device} {data : Mem} (answers : Answers port dev cs)
        (run : alone (service state.lbaSize) cs (rwPage true state (window a state offset total written).lba port.fresh
          (some data) fun status data => if status ≠ 0 then .done (.ret (written,buffer)) else
            writing a state port.fresh offset total buffer fuel
              (add64 written (window a state offset total written).size) (some data)) dev.bytes = (.done out,store)) :
        (namespaceRwPage port true state (window a state offset total written).lba (some data) dev >>= fun turn =>
          if turn.1 ≠ 0 then .ret (written,turn.2.2) else writeLoop a port state buffer offset total fuel
            (add64 written (window a state offset total written).size) turn.2.1 turn.2.2).map
              (fun (n,dev) => (n,buffer,dev.bytes)) = out.map fun (n,buffer) => (n,buffer,store) := by
      obtain ⟨faults,rfl⟩ | ⟨status,held,after,commanded,failed,rfl,rfl⟩ | ⟨rest,held,after,commanded,later,further⟩ :=
        turnAlone positive answers run
      · rw [faults]
        rfl
      · rw [commanded,Outcome.retBind,if_pos failed]
        rfl
      · rw [commanded]
        exact ih later further
    dsimp only at run ⊢
    by_cases part : (window a state offset total written).size < pageSize
    · rw [if_pos part] at run
      rw [if_pos part]
      obtain ⟨faults,rfl⟩ | ⟨status,held,after,commanded,failed,rfl,rfl⟩ | ⟨rest,held,after,commanded,later,further⟩ :=
        turnAlone positive answers run
      · simp only [faults]
        rfl
      · simp only [commanded,Outcome.retBind,if_pos failed]
        rfl
      · simp only [commanded,Outcome.retBind]
        exact stored later further
    · rw [if_neg part] at run
      rw [if_neg part,Outcome.retBind]
      cases page with
      | none =>
        rw [aloneDone] at run
        cases run
        rfl
      | some data => exact stored answers run

theorem callAlone (p : Paged state) (c : Call) {fuel : Nat} {bytes : Mem}
    (run : alone (service state.lbaSize) cs (c.caller a state fuel) bytes = (.done out,store)) :
    c.run a state fuel cs bytes = out.map fun (n,buffer) => (n,buffer,store) := by
  have answers : Answers ⟨fun k => cs.getD k 0,c.fresh⟩ ⟨bytes,[]⟩ cs := by
    intro k status here
    rw [List.length_nil,Nat.zero_add]
    change cs.getD k 0 = status
    rw [List.getD_eq_getElem?_getD,here,Option.getD_some]
  rw [Call.caller] at run
  rw [Call.run]
  by_cases write : c.write = true
  · rw [if_pos write] at run
    rw [if_pos write]
    exact writingAlone p.positive answers run
  · rw [if_neg write] at run
    rw [if_neg write,readNvmeNamespace]
    have same := readingAlone (r := ⟨0,none,c.buffer,⟨bytes,[]⟩⟩)
      p.positive answers run
    rw [← same]
    simp only [Outcome.map,Outcome.bindAssoc]
    rfl

theorem pageTransfers (p : Paged state) (write : Bool) (q x : Nat) :
    transfers state.lbaSize (pageCommand write state q) x ↔ q * state.lbaSize ≤ x ∧ x < q * state.lbaSize + pageSize := by
  have start : q % 2^32 + 2^32 * (q / 2^32) = q := Nat.mod_add_div q _
  simp only [transfers,blocks,pageCommand,p.length,start]

variable {looks changes : Nat → Prop}

theorem rwPageConfined (p : Paged state) {write : Bool} {q : Nat} {fresh page : Option Mem} {next : Nat → Mem → Caller}
    (within : ∀ x, q * state.lbaSize ≤ x → x < q * state.lbaSize + pageSize → if write then changes x else looks x)
    (rest : ∀ status data, Confined (service state.lbaSize) looks changes (next status data)) :
    Confined (service state.lbaSize) looks changes (rwPage write state q fresh page next) := by
  have commanded (data : Mem) :
      Confined (service state.lbaSize) looks changes (rwPage.command write state q next data) := by
    rw [rwPage.command,if_neg p.positive.ne']
    refine .access (fun x cell => ?_) (fun x cell => ?_) fun r => rest r.1 r.2
    all_goals
      obtain ⟨kind,inside⟩ := cell
      have inPage := (pageTransfers p write q x).mp inside
      have mine := within x inPage.1 inPage.2
      cases write
    · exact mine
    · exact absurd rfl kind
    · cases kind
    · exact mine
  cases page with
  | some data => exact commanded data
  | none =>
    cases fresh with
    | some data => exact commanded _
    | none => exact .done _

theorem readingConfined (p : Paged state) (low : offset < 2^64) (fits : total < 2^64)
    (within : ∀ x, covered state offset total x → looks x) {fresh : Option Mem} (fuel j : Nat) (page : Option Mem)
    (buffer : Mem) : Confined (service state.lbaSize) looks changes
      (reading a state fresh offset total fuel (delivered state offset total j) page buffer) := by
  induction fuel generalizing j page buffer with
  | zero => exact .done _
  | succ fuel ih =>
    rw [reading,if_neg p.positive.ne']
    by_cases done : total ≤ delivered state offset total j
    · rw [if_pos done]
      exact .done _
    rw [if_neg done]
    have left := Nat.lt_of_not_le done
    obtain ⟨lba,next⟩ := windowDelivered (a := a) p low fits left
    dsimp only
    rw [lba,next]
    refine rwPageConfined p (fun x lower upper => within x ⟨j,left,lower,upper⟩) fun status data => ?_
    by_cases failed : status ≠ 0
    · rw [if_pos failed]
      exact .done _
    · rw [if_neg failed]
      exact ih (j + 1) _ _

theorem writingConfined (p : Paged state) (low : offset < 2^64) (fits : total < 2^64)
    (seen : ∀ x, covered state offset total x → looks x) (changed : ∀ x, covered state offset total x → changes x)
    {fresh : Option Mem} (buffer : Mem) (fuel j : Nat) (page : Option Mem) : Confined (service state.lbaSize) looks changes
      (writing a state fresh offset total buffer fuel (delivered state offset total j) page) := by
  induction fuel generalizing j page with
  | zero => exact .done _
  | succ fuel ih =>
    rw [writing,if_neg p.positive.ne']
    by_cases done : total ≤ delivered state offset total j
    · rw [if_pos done]
      exact .done _
    rw [if_neg done]
    have left := Nat.lt_of_not_le done
    obtain ⟨lba,next⟩ := windowDelivered (a := a) p low fits left
    dsimp only
    rw [lba,next]
    have stored (data : Mem) : Confined (service state.lbaSize) looks changes
        (rwPage true state (asInt (firstBlock state offset j)) fresh (some data) fun status data =>
          if status ≠ 0 then .done (.ret (delivered state offset total j,buffer))
          else writing a state fresh offset total buffer fuel (delivered state offset total (j + 1)) (some data)) := by
      refine rwPageConfined p (fun x lower upper => changed x ⟨j,left,lower,upper⟩) fun status data => ?_
      by_cases failed : status ≠ 0
      · rw [if_pos failed]
        exact .done _
      · rw [if_neg failed]
        exact ih (j + 1) _
    split_ifs with part
    · refine rwPageConfined p (fun x lower upper => seen x ⟨j,left,lower,upper⟩) fun status data => ?_
      by_cases failed : status ≠ 0
      · rw [if_pos failed]
        exact .done _
      · rw [if_neg failed]
        exact stored _
    · cases page with
      | none => exact .done _
      | some data => exact stored _

theorem callConfined (p : Paged state) (c : Call) (low : c.offset < 2^64) (fuel : Nat) :
    Confined (service state.lbaSize) (c.covers state) (fun x => c.write = true ∧ c.covers state x)
      (c.caller a state fuel) := by
  have fits : mul64 c.size c.count < 2^64 := Nat.mod_lt _ (Nat.two_pow_pos 64)
  have first : 0 = delivered state c.offset (mul64 c.size c.count) 0 := deliveredFirst.symm
  rw [Call.caller,first]
  split_ifs with write
  · exact writingConfined p low fits (fun _ mine => mine) (fun _ mine => ⟨write,mine⟩) c.buffer fuel 0 none
  · exact readingConfined p low fits (fun _ mine => mine) fuel 0 none c.buffer

def Separate {ι : Type} (state : NamespaceState) (calls : ι → Call) : Prop :=
  ∀ i j, i ≠ j → (calls i).write = true → ∀ x, (calls i).covers state x → ¬ (calls j).covers state x

variable {ι : Type} [DecidableEq ι] {calls : ι → Call} {fuel : ι → Nat} {bytes : Mem}
  {t : Shared (Command × Mem) (Nat × Mem) Nat Nat UInt8 (Outcome (Nat × Mem)) ι}

/- However the commands of any number of calls interleave and whatever their statuses: a call
that is done returns what it returns alone from the first bytes, its pages are as it leaves
them, and pages of no write are as before. -/
theorem callsApart (p : Paged state) (low : ∀ i, (calls i).offset < 2^64) (separate : Separate state calls)
    (run : Relation.ReflTransGen (Turn (service state.lbaSize))
      (start bytes fun i => (calls i).caller a state (fuel i)) t) :
    (∀ i out, t.processes i = .done out → ∃ after,
        (calls i).run a state (fuel i) (t.choices i) bytes = out.map (fun (n,buffer) => (n,buffer,after)) ∧
        ∀ x, (calls i).covers state x → t.store x = after x) ∧
      ∀ x, (∀ i, (calls i).write = true → ¬ (calls i).covers state x) → t.store x = bytes x := by
  have each : Apart (fun i x => (calls i).covers state x)
      fun i x => (calls i).write = true ∧ (calls i).covers state x := by
    rintro i j other x ⟨write,mine⟩ (sees | ⟨_,changes⟩)
    · exact separate i j other write x mine sees
    · exact separate i j other write x mine changes
  obtain ⟨follows,rest⟩ := turnsApart each (fun i => callConfined (a := a) p (calls i) (low i) (fuel i)) run
  refine ⟨fun i out done => ?_,fun x none => rest x fun i mine => none i mine.1 mine.2⟩
  obtain ⟨process,cells,_⟩ := follows i
  exact ⟨_,callAlone p (calls i) (Prod.ext (process.trans done) rfl),fun x mine => (cells x (.inl mine)).symm⟩

end

structure Partial (state : NamespaceState) (c : Call) : Prop where
  placed : Placed state c.offset (c.size * c.count)
  write : c.write = true
  page : c.fresh.isSome
  some : 0 < c.size * c.count
  less : c.size * c.count < pageSize
  inPage : c.offset % state.lbaSize + c.size * c.count ≤ pageSize

def Call.page (state : NamespaceState) (c : Call) : Nat := c.offset / state.lbaSize * state.lbaSize

section
variable {a : Align} {state : NamespaceState} {c : Call}

theorem Partial.small (h : Partial state c) : mul64 c.size c.count = c.size * c.count := by
  have page : pageSize = 4096 := rfl
  have less := h.less
  exact mul64Eq (by omega)

theorem servedRead (p : Paged state) (q : Nat) (data bytes : Mem) :
    (service state.lbaSize).serve (pageCommand false state q,data) 0 bytes =
      ((0,patch data 0 pageSize (view bytes (q * state.lbaSize))),bytes) := by
  have start : q % 2^32 + 2^32 * (q / 2^32) = q := Nat.mod_add_div q _
  simp only [service,execute,pageCommand,p.length,start]
  rfl

theorem servedWrite (p : Paged state) (q : Nat) (data bytes : Mem) :
    (service state.lbaSize).serve (pageCommand true state q,data) 0 bytes =
      ((0,data),patch bytes (q * state.lbaSize) pageSize data) := by
  have start : q % 2^32 + 2^32 * (q / 2^32) = q := Nat.mod_add_div q _
  simp only [service,execute,pageCommand,p.length,start]
  rfl

theorem partialCaller (h : Partial state c) (fuel : Nat) : ∃ given,
    c.caller a state (fuel + 2) = .access (pageCommand false state (c.offset / state.lbaSize),given) fun answer =>
      if answer.1 ≠ 0 then .done (.ret (0,c.buffer)) else
        .access (pageCommand true state (c.offset / state.lbaSize),
            patch answer.2 (c.offset % state.lbaSize) (c.size * c.count) c.buffer) fun answer =>
          if answer.1 ≠ 0 then .done (.ret (0,c.buffer)) else .done (.ret (c.size * c.count,c.buffer)) := by
  obtain ⟨data,given⟩ := Option.isSome_iff_exists.mp h.page
  have page : pageSize = 4096 := rfl
  have less := h.less
  have inPage := h.inPage
  have moved : share state c.offset (c.size * c.count) 0 = c.size * c.count := by
    rw [share,Nat.add_zero,Nat.sub_zero]
    omega
  have turn := windowEq (a := a) h.placed h.some (.inl rfl)
  rw [moved,Nat.add_zero] at turn
  have all : add64 0 (c.size * c.count) = c.size * c.count := by
    rw [add64Eq (by omega),Nat.zero_add]
  have last (fresh : Option Mem) (data : Mem) : writing a state fresh c.offset (c.size * c.count) c.buffer (fuel + 1)
      (c.size * c.count) (some data) = .done (.ret (c.size * c.count,c.buffer)) := by
    rw [writing,if_pos (Nat.le_refl _)]
  refine ⟨patch data 0 pageSize zeros,?_⟩
  rw [Call.caller,if_pos h.write,h.small,writing,if_neg (Nat.not_le_of_lt h.some),if_neg h.placed.paged.positive.ne']
  simp only [turn,if_pos less,all,last,given,rwPage,rwPage.command,if_neg h.placed.paged.positive.ne',viewZero]

theorem partialTurns (h : Partial state c) (bytes : Mem) : ∃ rest,
    alone (service state.lbaSize) [0] (c.caller a state 2) bytes = (rest,bytes) ∧
    ∀ now, ∃ after, alone (service state.lbaSize) [0] rest now = (.done (.ret (c.size * c.count,c.buffer)),after) ∧
      (∀ k < c.size * c.count, after (c.offset + k) = c.buffer k) ∧
      ∀ x, c.page state ≤ x → x < c.page state + pageSize → x < c.offset ∨ c.offset + c.size * c.count ≤ x →
        after x = bytes x := by
  obtain ⟨given,caller⟩ := partialCaller (a := a) h 0
  have place : c.page state + c.offset % state.lbaSize = c.offset := Nat.div_add_mod' c.offset state.lbaSize
  have inPage := h.inPage
  have paged := h.placed.paged
  let data := patch (patch given 0 pageSize (view bytes (c.page state))) (c.offset % state.lbaSize) (c.size * c.count) c.buffer
  have first : alone (service state.lbaSize) [0] (c.caller a state 2) bytes =
      (.access (pageCommand true state (c.offset / state.lbaSize),data) (fun answer =>
        if answer.1 ≠ 0 then .done (.ret (0,c.buffer)) else .done (.ret (c.size * c.count,c.buffer))),bytes) := by
    rw [caller,alone,servedRead paged]
    rfl
  refine ⟨_,first,fun now => ⟨patch now (c.page state) pageSize data,?_,fun k low => ?_,fun x lower upper outside => ?_⟩⟩
  · rw [alone,servedWrite paged]
    rfl
  · rw [patchInside (by omega) (by omega)]
    change patch _ _ _ _ _ = _
    rw [patchInside (by omega) (by omega)]
    exact congrArg c.buffer (by omega)
  · rw [patchInside lower upper]
    change patch _ _ _ _ _ = _
    rw [patchOutside (by omega),patchInside (Nat.zero_le _) (by omega),viewApply]
    exact congrArg bytes (by omega)

theorem succeedsAlone (p : Paged state) (write : c.write = true) {fuel n : Nat} {bytes : Mem} {dev : Device}
    (run : writeNvmeNamespace a ⟨fun _ => 0,c.fresh⟩ state c.buffer c.size c.count c.offset fuel ⟨bytes,[]⟩ =
      .ret (n,dev)) :
    ∃ k, alone (service state.lbaSize) (List.replicate k 0) (c.caller a state fuel) bytes =
      (.done (.ret (n,c.buffer)),dev.bytes) := by
  obtain ⟨k,out,store,ended⟩ := finishes (service state.lbaSize) 0 (c.caller a state fuel) bytes
  have zero : (fun i => (List.replicate k 0).getD i 0) = fun _ => 0 := by
    funext i
    rw [List.getD_eq_getElem?_getD,List.getElem?_replicate]
    split_ifs <;> rfl
  have same := callAlone p c ended
  rw [Call.run,if_pos write,zero,run] at same
  cases out with
  | ret r =>
    obtain ⟨m,buffer⟩ := r
    cases same
    exact ⟨k,ended⟩
  | fault e => cases same
  | running => cases same

theorem overtaken {first second : Call} (less : Partial state second) {k fuel : Nat} {bytes between : Mem} {out : Outcome (Nat × Mem)}
    (ended : alone (service state.lbaSize) (List.replicate k 0) (first.caller a state fuel) bytes = (.done out,between)) :
    ∃ t, Relation.ReflTransGen (Turn (service state.lbaSize)) (start bytes fun i : Bool =>
        (if i then first else second).caller a state (if i then fuel else 2)) t ∧
      t.processes true = .done out ∧
      t.processes false = .done (.ret (second.size * second.count,second.buffer)) ∧
      (∀ k < second.size * second.count, t.store (second.offset + k) = second.buffer k) ∧
      ∀ x, second.page state ≤ x → x < second.page state + pageSize →
        x < second.offset ∨ second.offset + second.size * second.count ≤ x → t.store x = bytes x := by
  obtain ⟨rest,read,stores⟩ := partialTurns (a := a) less bytes
  obtain ⟨after,wrote,mine,others⟩ := stores between
  let callers (i : Bool) : Caller := (if i then first else second).caller a state (if i then fuel else 2)
  obtain ⟨c,reads⟩ := turnsAlone (s := start bytes callers) (i := false) rfl read
  obtain ⟨d,runs⟩ := turnsAlone (s := ⟨bytes,Function.update callers false rest,c⟩) (i := true) rfl ended
  obtain ⟨_,writes⟩ := turnsAlone (s := ⟨between,Function.update (Function.update callers false rest) true (.done out),d⟩)
    (i := false) rfl wrote
  exact ⟨_,(reads.trans runs).trans writes,rfl,rfl,mine,others⟩

/-- A write of less than a page stores the rest of its page as it was when the page was read:
what another call has written there since is lost, though both calls report success. -/
theorem updatesLost {first second : Call} (write : first.write = true)
    (placed : Placed state first.offset (first.size * first.count)) (page : first.fresh.isSome)
    (copied : first.offset % state.lbaSize ≠ 0 ∨ first.size * first.count < pageSize) (less : Partial state second)
    (bytes : Mem) : ∃ fuel t,
    Relation.ReflTransGen (Turn (service state.lbaSize)) (start bytes fun i : Bool =>
      (if i then first else second).caller a state (if i then fuel else 2)) t ∧
    t.processes true = .done (.ret (first.size * first.count,first.buffer)) ∧
    t.processes false = .done (.ret (second.size * second.count,second.buffer)) ∧
    (∀ k < second.size * second.count, t.store (second.offset + k) = second.buffer k) ∧
    ∀ x, second.page state ≤ x → x < second.page state + pageSize →
      x < second.offset ∨ second.offset + second.size * second.count ≤ x → t.store x = bytes x := by
  have served : Served state ⟨fun _ => 0,first.fresh⟩ first.offset (first.size * first.count) :=
    ⟨placed.block,placed.lba,fun _ => rfl,placed.near⟩
  obtain ⟨fuel,dev,wrote,_⟩ := (writesIff (a := a) served first.buffer ⟨bytes,[]⟩).mpr (.inr ⟨page,copied⟩)
  obtain ⟨k,ended⟩ := succeedsAlone placed.paged write wrote
  exact ⟨fuel,overtaken less ended⟩

end

def hundred (offset : Nat) : Call := ⟨true,some zeros,fun _ => 1,1,100,offset⟩

theorem hundredPlaced {offset : Nat} (low : offset ≤ 2^30) : Placed plainState offset (1 * 100) :=
  (plainServed (by omega)).placed

theorem hundredPartial {offset : Nat} (low : offset ≤ 2^30) (inPage : offset % 512 ≤ 412) :
    Partial plainState (hundred offset) := by
  refine ⟨hundredPlaced low,rfl,rfl,show 0 < 1 * 100 by decide,show 1 * 100 < 4096 by decide,?_⟩
  change offset % 512 + 1 * 100 ≤ 4096
  omega

theorem updatesLostHundred : ∃ fuel t,
    Relation.ReflTransGen (Turn (service plainState.lbaSize)) (start zeros fun i : Bool =>
      (if i then hundred 100 else hundred 200).caller .standard plainState (if i then fuel else 2)) t ∧
    t.processes true = .done (.ret (1 * 100,fun _ => 1)) ∧ t.processes false = .done (.ret (1 * 100,fun _ => 1)) ∧
    (∀ k < 1 * 100, t.store (200 + k) = 1) ∧
    ∀ x, 0 ≤ x → x < 0 + pageSize → x < 200 ∨ 200 + 1 * 100 ≤ x → t.store x = zeros x :=
  @updatesLost .standard plainState (hundred 100) (hundred 200) rfl (hundredPlaced (by decide)) rfl (.inr (by decide))
    (hundredPartial (by decide) (by decide)) zeros

theorem hundredCovers {offset x : Nat} (low : offset ≤ 2^30) (aligned : offset % 512 = 0)
    {write : Bool} (covers : ({ hundred offset with write := write } : Call).covers plainState x) : offset ≤ x ∧ x < offset + 4096 := by
  have total : mul64 1 100 = 100 := rfl
  have size : pageSize = 4096 := rfl
  obtain ⟨j,left,lower,upper⟩ := covers
  simp only [hundred,total] at left lower upper
  have below := ((deliveredBelow (hundredPlaced low).paged).mp left).2
  simp only [plainState,aligned,size] at below
  obtain rfl : j = 0 := by omega
  have first : firstBlock plainState offset 0 = offset / 512 := rfl
  have int : asInt (offset / 512) = offset / 512 :=
    (asIntEq _).symm.trans (intLba ((Nat.div_le_self _ _).trans_lt (low.trans_lt (by decide))))
  rw [first,int] at lower upper
  simp only [plainState,size] at lower upper
  omega

end Kdrivers.NvmeProcessors
