import Kdrivers.TaggedRing
import Mathlib.Data.List.Perm.Basic
import Mathlib.Data.List.Nodup
import Mathlib.Data.Nat.Bitwise
import Mathlib.Logic.Relation

/-! One NVMe queue pair of the PCI transport (nvme.h, pci.c) and the controller on
the other side of it. A run interleaves submissions, completions posted by the
controller and polls that leave their wait loop. The interrupt flag and the
doorbell stride do not influence which entry a poll takes and are left out. -/
namespace Kdrivers.NvmeQueue
open TaggedRing

structure QsEntry where
  opcode : Nat
  cid : Nat
  nsid : Nat
  mptr : Nat
  prp1 : Nat
  prp2 : Nat
  cdw10 : Nat
  cdw11 : Nat
  cdw12 : Nat
  deriving DecidableEq, Repr

structure QcEntry where
  dw0 : Nat
  dw1 : Nat
  sqHeadPtr : Nat
  sqIdent : Nat
  cid : Nat
  phase : Bool
  status : Nat
  deriving DecidableEq, Repr

def QsEntry.zero : QsEntry := ⟨0,0,0,0,0,0,0,0,0⟩
def QcEntry.zero : QcEntry := ⟨0,0,0,0,0,false,0⟩

structure Ringbuffer where
  objs : Nat
  idx : Nat
  deriving DecidableEq, Repr

/- ringbuffer_allocate(r, 1) as the driver relies on it: the current index, which then
advances modulo the number of slots. It does not look at what is still in use. -/
def ringbufferAllocate (r : Ringbuffer) : Nat × Ringbuffer :=
  (r.idx,{ r with idx := (r.idx + 1) % r.objs })

structure Qpair where
  subq : Ringbuffer
  cmpq : Ringbuffer
  id : Nat
  phase : Bool
  deriving DecidableEq, Repr

/- What the two driver functions read and write for one pair: the pair itself, the
two rings' memory, the doorbells, and every index passed to ringbuffer_free. -/
structure Memory where
  qpair : Qpair
  sq : Nat → QsEntry
  cq : Nat → QcEntry
  sqDoorbell : Nat
  cqDoorbell : Nat
  freed : List Nat

-- admin is the case of a NULL qpair argument
def commandId (admin : Bool) (id ptr : Nat) : Nat :=
  if admin then 1 <<< 15 ||| (ptr &&& 0xFF) else (id &&& 0x3F) ||| ((ptr &&& 0xFF) <<< 6)

def nvmePciSubmitCommand (admin : Bool) (m : Memory) (cmd : QsEntry) : QsEntry × Memory :=
  let (ptr,subq) := ringbufferAllocate m.qpair.subq
  let cmd := { cmd with cid := commandId admin m.qpair.id ptr }
  (cmd,{ m with
    qpair := { m.qpair with subq := subq }
    sq := Function.update m.sq ptr cmd
    sqDoorbell := (ptr + 1) % m.qpair.subq.objs })

def freedIndex (id cid : Nat) : Nat := if id = 0 then cid else (cid >>> 6) &&& 0xFF

def nvmePciPollCompletion (m : Memory) (cmd : QsEntry) : Option (Nat × QcEntry × Memory) :=
  let i := m.qpair.cmpq.idx
  if (m.cq i).phase ≠ m.qpair.phase ∨ (m.cq i).cid ≠ cmd.cid then none
  else
    let (idx,cmpq) := ringbufferAllocate m.qpair.cmpq
    -- the pair's phase is inverted here and, for the same index, once more below
    let phase := if idx = m.qpair.cmpq.objs - 1 then !m.qpair.phase else m.qpair.phase
    let phase := if idx + 1 ≥ m.qpair.cmpq.objs then !phase else phase
    some ((m.cq i).status,m.cq i,{ m with
      qpair := { m.qpair with cmpq := cmpq, phase := phase }
      cqDoorbell := (idx + 1) % m.qpair.cmpq.objs
      freed := m.freed ++ [freedIndex m.qpair.id cmd.cid] })

structure Size where
  sub : Nat
  comp : Nat
  pos : 0 < sub
  ids : sub ≤ 256
  roomy : sub ≤ comp

theorem Size.compPos (size : Size) : 0 < size.comp := Nat.lt_of_lt_of_le size.pos size.roomy

-- create_admin_qpair, and with qsize 0x1000 every pair of nvme_create_io_qpairs
def driverSize : Size := ⟨64,256,by decide,by decide,by decide⟩

def createQpair (size : Size) (id : Nat) : Qpair := ⟨⟨size.sub,0⟩,⟨size.comp,0⟩,id,true⟩

structure Take where
  number : Nat
  status : Nat
  ret : QcEntry
  deriving DecidableEq, Repr

structure State where
  admin : Bool
  mem : Memory
  issued : List (Nat × QsEntry)
  pending : List Nat
  outstanding : List Nat
  posts : List (Nat × QcEntry)
  takes : List Take

def initial (size : Size) (admin : Bool) (id : Nat) : State :=
  ⟨admin,⟨createQpair size id,fun _ => QsEntry.zero,fun _ => QcEntry.zero,0,0,[]⟩,[],[],[],[],[]⟩

inductive Action where
  | submit (cmd : QsEntry)
  | post (number : Nat) (entry : QcEntry)
  | poll (number : Nat)
  deriving DecidableEq, Repr

/- The controller posts into successive slots, with the id of the command it completes
and the tag of its own pass; everything else in the entry is its choice. -/
def postAllowed (s : State) (number : Nat) (entry : QcEntry) : Prop :=
  number ∈ s.pending ∧ (∃ sub ∈ s.issued[number]?, entry.cid = sub.2.cid) ∧
  entry.phase = tag s.mem.qpair.cmpq.objs s.posts.length
instance (s number entry) : Decidable (postAllowed s number entry) := by
  unfold postAllowed; infer_instance

def step (s : State) : Action → Option State
  | .submit cmd =>
    if s.outstanding.length + 1 < s.mem.qpair.subq.objs then
      let (sent,mem) := nvmePciSubmitCommand s.admin s.mem cmd
      some { s with
        mem := mem
        issued := s.issued ++ [(s.mem.qpair.subq.idx,sent)]
        pending := s.pending ++ [s.issued.length]
        outstanding := s.outstanding ++ [s.issued.length] }
    else none
  | .post number entry =>
    if postAllowed s number entry then
      some { s with
        mem := { s.mem with
          cq := Function.update s.mem.cq (s.posts.length % s.mem.qpair.cmpq.objs) entry }
        pending := s.pending.erase number
        posts := s.posts ++ [(number,entry)] }
    else none
  | .poll number => do
    if number ∈ s.outstanding then
      let sub ← s.issued[number]?
      let (status,ret,mem) ← nvmePciPollCompletion s.mem sub.2
      some { s with
        mem := mem
        outstanding := s.outstanding.erase number
        takes := s.takes ++ [⟨number,status,ret⟩] }
    else none

def Step (s t : State) : Prop := ∃ a, step s a = some t

def delivered (p : Nat × QcEntry) : Take := ⟨p.1,p.2.status,p.2⟩

/- What the two functions promise their callers: polls consume the posted completions in
posting order, each for its own submission and once; the oldest one left lets the poll of
its command leave the wait loop; and the expected tag is the controller's next. -/
structure Faithful (s : State) : Prop where
  inOrder : s.takes = (s.posts.take s.takes.length).map delivered
  once : (s.takes.map Take.number).Nodup
  ready : ∀ p, s.posts[s.takes.length]? = some p → ∃ t, step s (.poll p.1) = some t
  phase : s.mem.qpair.phase = tag s.mem.qpair.cmpq.objs s.takes.length

theorem commandIdInjective {admin : Bool} {id a b : Nat} (ha : a < 256) (hb : b < 256)
    (same : commandId admin id a = commandId admin id b) : a = b := by
  have low (n : Nat) (hn : n < 256) : n &&& 0xFF = n := by
    rw [show 0xFF = 2^8 - 1 by rfl,Nat.and_two_pow_sub_one_eq_mod]
    exact Nat.mod_eq_of_lt hn
  unfold commandId at same
  rw [low a ha,low b hb] at same
  cases admin with
  | true =>
    simp only [if_true] at same
    have kept := congrArg (· &&& 0xFF) same
    simpa [Nat.and_or_distrib_right,low a ha,low b hb] using kept
  | false =>
    simp only [Bool.false_eq_true,if_false] at same
    have small : (id &&& 0x3F) >>> 6 = 0 := by
      rw [Nat.shiftRight_eq_div_pow]
      exact Nat.div_eq_of_lt (Nat.and_lt_two_pow id (by decide : 0x3F < 2^6))
    have kept := congrArg (· >>> 6) same
    simpa [Nat.shiftRight_or_distrib,small,Nat.shiftLeft_shiftRight] using kept

structure Inv (size : Size) (s : State) : Prop where
  sub : s.mem.qpair.subq = ⟨size.sub,s.issued.length % size.sub⟩
  cmp : s.mem.qpair.cmpq = ⟨size.comp,s.takes.length % size.comp⟩
  first : s.takes.length < size.comp
  phase : s.mem.qpair.phase = true
  ring : Fresh size.comp QcEntry.phase s.mem.cq (s.posts.map Prod.snd) s.takes.length
  slots : ∀ n sub, s.issued[n]? = some sub →
    sub.1 = n % size.sub ∧ sub.2.cid = commandId s.admin s.mem.qpair.id sub.1
  answered : ∀ p ∈ s.posts, ∃ sub, s.issued[p.1]? = some sub ∧ p.2.cid = sub.2.cid
  tally : (s.posts.map Prod.fst ++ s.pending).Perm (List.range s.issued.length)
  waiting : s.outstanding.Perm ((s.posts.drop s.takes.length).map Prod.fst ++ s.pending)
  apart : (s.outstanding.map (· % size.sub)).Nodup
  few : s.outstanding.length < size.sub
  inOrder : s.takes = (s.posts.take s.takes.length).map delivered

theorem initialInv (size : Size) (admin : Bool) (id : Nat) : Inv size (initial size admin id) where
  sub := by simp [initial,createQpair]
  cmp := by simp [initial,createQpair]
  first := size.compPos
  phase := rfl
  ring := freshEmpty fun _ => rfl
  slots := by simp [initial]
  answered := by simp [initial]
  tally := by simp [initial]
  waiting := by simp [initial]
  apart := by simp [initial]
  few := size.pos
  inOrder := rfl

section Consequences
variable {size : Size} {s : State} (inv : Inv size s)
include inv

theorem Inv.takesWithin : s.takes.length ≤ s.posts.length := by
  simpa using inv.ring.order

theorem Inv.outstandingIssued {n : Nat} (mem : n ∈ s.outstanding) : ∃ sub, s.issued[n]? = some sub := by
  have inside : n ∈ s.posts.map Prod.fst ++ s.pending := by
    rcases List.mem_append.mp (inv.waiting.mem_iff.mp mem) with posted | pending
    · obtain ⟨p,hp,rfl⟩ := List.mem_map.mp posted
      exact List.mem_append_left _ (List.mem_map.mpr ⟨p,List.mem_of_mem_drop hp,rfl⟩)
    · exact List.mem_append_right _ pending
  have below : n < s.issued.length := by simpa using inv.tally.mem_iff.mp inside
  exact ⟨_,List.getElem?_eq_getElem below⟩

theorem Inv.sameCommand {n m : Nat} {a b : Nat × QsEntry} (hn : n ∈ s.outstanding) (hm : m ∈ s.outstanding)
    (ha : s.issued[n]? = some a) (hb : s.issued[m]? = some b) (same : a.2.cid = b.2.cid) : n = m := by
  obtain ⟨slotA,cidA⟩ := inv.slots n a ha
  obtain ⟨slotB,cidB⟩ := inv.slots m b hb
  have bound (k : Nat) : k % size.sub < 256 := Nat.lt_of_lt_of_le (Nat.mod_lt _ size.pos) size.ids
  rw [cidA,cidB,slotA,slotB] at same
  have slot : n % size.sub = m % size.sub := commandIdInjective (bound n) (bound m) same
  exact List.inj_on_of_nodup_map inv.apart hn hm slot

theorem Inv.acceptedPosted (accepted : (s.mem.cq s.mem.qpair.cmpq.idx).phase = s.mem.qpair.phase) :
    ∃ p, s.posts[s.takes.length]? = some p ∧ s.mem.cq s.mem.qpair.cmpq.idx = p.2 ∧ p.1 ∈ s.outstanding := by
  rw [inv.phase,inv.cmp,← tagFirstPass inv.first] at accepted
  have made := (readyIff size.compPos inv.ring).mp accepted
  rw [List.length_map] at made
  refine ⟨_,List.getElem?_eq_getElem made,?_,?_⟩
  · rw [inv.cmp]
    exact (inv.ring.new s.takes.length _ (Nat.le_refl _) (by simp [made])).1
  · rw [inv.waiting.mem_iff,List.drop_eq_getElem_cons made,List.map_cons,List.cons_append]
    exact List.mem_cons_self

end Consequences

theorem submitted {s t : State} {cmd : QsEntry} (ok : step s (.submit cmd) = some t) :
    s.outstanding.length + 1 < s.mem.qpair.subq.objs ∧
    t = { s with
      mem := (nvmePciSubmitCommand s.admin s.mem cmd).2
      issued := s.issued ++ [(s.mem.qpair.subq.idx,(nvmePciSubmitCommand s.admin s.mem cmd).1)]
      pending := s.pending ++ [s.issued.length]
      outstanding := s.outstanding ++ [s.issued.length] } := by
  simp only [step] at ok
  split at ok <;> try contradiction
  exact ⟨by assumption,(Option.some.inj ok).symm⟩

theorem posted {s t : State} {number : Nat} {entry : QcEntry} (ok : step s (.post number entry) = some t) :
    postAllowed s number entry ∧
    t = { s with
      mem := { s.mem with
        cq := Function.update s.mem.cq (s.posts.length % s.mem.qpair.cmpq.objs) entry }
      pending := s.pending.erase number
      posts := s.posts ++ [(number,entry)] } := by
  simp only [step] at ok
  split at ok <;> try contradiction
  exact ⟨by assumption,(Option.some.inj ok).symm⟩

theorem polled {s t : State} {number : Nat} (ok : step s (.poll number) = some t) :
    number ∈ s.outstanding ∧ ∃ sub, s.issued[number]? = some sub ∧
    ∃ status ret mem, nvmePciPollCompletion s.mem sub.2 = some (status,ret,mem) ∧
      t = { s with
        mem := mem
        outstanding := s.outstanding.erase number
        takes := s.takes ++ [⟨number,status,ret⟩] } := by
  simp only [step] at ok
  split at ok <;> try contradiction
  rename_i held
  simp only [bind,Option.bind_eq_some_iff] at ok
  obtain ⟨sub,found,⟨status,ret,mem⟩,left,last⟩ := ok
  exact ⟨held,sub,found,status,ret,mem,left,(Option.some.inj last).symm⟩

theorem pollLeft {m mem : Memory} {cmd : QsEntry} {status : Nat} {ret : QcEntry}
    (left : nvmePciPollCompletion m cmd = some (status,ret,mem)) :
    (m.cq m.qpair.cmpq.idx).phase = m.qpair.phase ∧ (m.cq m.qpair.cmpq.idx).cid = cmd.cid ∧
    status = ret.status ∧ ret = m.cq m.qpair.cmpq.idx ∧
    mem.cq = m.cq ∧ mem.qpair.subq = m.qpair.subq ∧ mem.qpair.id = m.qpair.id ∧
    mem.qpair.cmpq = (ringbufferAllocate m.qpair.cmpq).2 ∧
    (m.qpair.cmpq.idx + 1 < m.qpair.cmpq.objs → mem.qpair.phase = m.qpair.phase) := by
  unfold nvmePciPollCompletion at left
  simp only [ringbufferAllocate] at left
  split at left <;> try contradiction
  rename_i waiting
  simp only [not_or,ne_eq,not_not] at waiting
  simp only [Option.some.injEq,Prod.mk.injEq] at left
  obtain ⟨rfl,rfl,rfl⟩ := left
  refine ⟨waiting.1,waiting.2,rfl,rfl,rfl,rfl,rfl,rfl,?_⟩
  intro more
  have notLast : ¬ m.qpair.cmpq.idx = m.qpair.cmpq.objs - 1 := by omega
  have inside : ¬ m.qpair.cmpq.idx + 1 ≥ m.qpair.cmpq.objs := by omega
  simp [notLast,inside]

/- Steps that avoid the two faults: no poll takes the last slot of the completion ring,
and no submission is given a slot whose earlier command is still outstanding. -/
def Careful (s : State) : Action → Prop
  | .submit _ => ∀ m ∈ s.outstanding, ∀ sub ∈ s.issued[m]?, sub.1 ≠ s.mem.qpair.subq.idx
  | .post _ _ => True
  | .poll _ => s.mem.qpair.cmpq.idx + 1 < s.mem.qpair.cmpq.objs

def CarefulStep (s t : State) : Prop := ∃ a, Careful s a ∧ step s a = some t

section Preservation
variable {size : Size} {s t : State} (inv : Inv size s)
include inv

theorem submitKeeps {cmd : QsEntry} (careful : Careful s (.submit cmd))
    (ok : step s (.submit cmd) = some t) : Inv size t := by
  obtain ⟨room,rfl⟩ := submitted ok
  have next : s.mem.qpair.subq.idx = s.issued.length % size.sub := by rw [inv.sub]
  have fewer : s.outstanding.length + 1 < size.sub := by simpa only [inv.sub] using room
  constructor
  case sub =>
    simp [nvmePciSubmitCommand,ringbufferAllocate,inv.sub,Nat.add_mod]
  case cmp => exact inv.cmp
  case first => exact inv.first
  case phase => exact inv.phase
  case ring => exact inv.ring
  case slots =>
    intro n sub found
    rcases Nat.lt_trichotomy n s.issued.length with old | same | beyond
    · rw [List.getElem?_append_left old] at found
      exact inv.slots n sub found
    · subst same
      have made : (s.mem.qpair.subq.idx,(nvmePciSubmitCommand s.admin s.mem cmd).1) = sub := by
        simpa using found
      subst made
      exact ⟨next,rfl⟩
    · rw [List.getElem?_eq_none (by simp; omega)] at found
      cases found
  case answered =>
    intro p mem
    obtain ⟨sub,found,same⟩ := inv.answered p mem
    have below := (List.getElem?_eq_some_iff.mp found).1
    exact ⟨sub,by rw [List.getElem?_append_left below]; exact found,same⟩
  case tally =>
    have more := inv.tally.append_right [s.issued.length]
    simpa [List.range_succ,List.append_assoc] using more
  case waiting =>
    have more := inv.waiting.append_right [s.issued.length]
    simpa [List.append_assoc] using more
  case apart =>
    rw [List.map_append,List.nodup_append]
    refine ⟨inv.apart,List.nodup_singleton _,?_⟩
    intro a old b last same
    obtain ⟨m,held,rfl⟩ := List.mem_map.mp old
    simp only [List.map_cons,List.map_nil,List.mem_singleton] at last
    obtain ⟨sub,found⟩ := inv.outstandingIssued held
    apply careful m held sub found
    rw [(inv.slots m sub found).1,next,same,last]
  case few => simpa using fewer
  case inOrder => exact inv.inOrder

theorem postKeeps {number : Nat} {entry : QcEntry} (ok : step s (.post number entry) = some t) :
    Inv size t := by
  obtain ⟨⟨waiting,⟨sub,found,own⟩,tagged⟩,rfl⟩ := posted ok
  have within := inv.takesWithin
  have held : (s.posts.drop s.takes.length).length + s.pending.length < size.sub := by
    have count := inv.waiting.length_eq
    have few := inv.few
    simp only [List.length_append,List.length_map] at count
    omega
  have room : s.posts.length < s.takes.length + size.comp := by
    have some := List.length_pos_of_mem waiting
    have roomy := size.roomy
    simp only [List.length_drop] at held
    omega
  constructor
  case sub => exact inv.sub
  case cmp => exact inv.cmp
  case first => exact inv.first
  case phase => exact inv.phase
  case ring =>
    have more := freshPost inv.ring (x := entry) (by simpa using room) (by
      simpa only [inv.cmp,List.length_map] using tagged)
    simpa only [inv.cmp,List.length_map,List.map_append,List.map_cons,List.map_nil] using more
  case slots => exact inv.slots
  case answered =>
    intro p mem
    rcases List.mem_append.mp mem with old | new
    · exact inv.answered p old
    · cases List.mem_singleton.mp new
      exact ⟨sub,found,own⟩
  case tally =>
    have moved : (s.posts.map Prod.fst ++ [number] ++ s.pending.erase number).Perm
        (s.posts.map Prod.fst ++ s.pending) := by
      rw [List.append_assoc]
      exact (List.perm_cons_erase waiting).symm.append_left _
    simpa using moved.trans inv.tally
  case waiting =>
    rw [List.drop_append_of_le_length within,List.map_append,List.append_assoc]
    exact inv.waiting.trans ((List.perm_cons_erase waiting).append_left _)
  case apart => exact inv.apart
  case few => exact inv.few
  case inOrder =>
    rw [List.take_append_of_le_length within]
    exact inv.inOrder

theorem pollKeeps {number : Nat} (careful : Careful s (.poll number))
    (ok : step s (.poll number) = some t) : Inv size t := by
  obtain ⟨held,sub,found,status,ret,mem,left,rfl⟩ := polled ok
  obtain ⟨phase,own,rfl,rfl,cq,subq,id,cmpq,kept⟩ := pollLeft left
  obtain ⟨p,oldest,entry,heldP⟩ := inv.acceptedPosted phase
  obtain ⟨subP,foundP,ownP⟩ := inv.answered p (List.mem_of_getElem? oldest)
  have same : number = p.1 :=
    inv.sameCommand held heldP found foundP (by rw [← own,entry,ownP])
  have made : s.takes.length < s.posts.length := (List.getElem?_eq_some_iff.mp oldest).1
  have atHead : s.posts.drop s.takes.length = p :: s.posts.drop (s.takes.length + 1) := by
    rw [List.drop_eq_getElem_cons made,(List.getElem?_eq_some_iff.mp oldest).2]
  have more : s.takes.length + 1 < size.comp := by
    have below : s.mem.qpair.cmpq.idx + 1 < s.mem.qpair.cmpq.objs := careful
    rw [inv.cmp] at below
    simpa only [Nat.mod_eq_of_lt inv.first] using below
  constructor
  case sub => simpa only [subq] using inv.sub
  case cmp =>
    simp only [cmpq,ringbufferAllocate,inv.cmp,List.length_append,List.length_singleton]
    rw [Nat.mod_add_mod]
  case first => simpa using more
  case phase => exact (kept careful).trans inv.phase
  case ring =>
    have next := freshTake size.compPos inv.ring (by simpa using made)
    simpa [cq] using next
  case slots => simpa only [id] using inv.slots
  case answered => exact inv.answered
  case tally => exact inv.tally
  case waiting =>
    have rest := inv.waiting.erase number
    rw [atHead,same,List.map_cons,List.cons_append,List.erase_cons_head] at rest
    simpa [same] using rest
  case apart =>
    exact inv.apart.sublist (List.erase_sublist.map _)
  case few => exact Nat.lt_of_le_of_lt List.erase_sublist.length_le inv.few
  case inOrder =>
    have grown := List.take_succ_eq_append_getElem made
    rw [(List.getElem?_eq_some_iff.mp oldest).2] at grown
    simp only [List.length_append,List.length_singleton,grown,List.map_append,List.map_cons,
      List.map_nil,← inv.inOrder]
    rw [entry,same]
    rfl

end Preservation

theorem carefulStepKeeps {size : Size} {s t : State} (inv : Inv size s) (go : CarefulStep s t) :
    Inv size t := by
  obtain ⟨a,careful,ok⟩ := go
  cases a with
  | submit cmd => exact submitKeeps inv careful ok
  | post number entry => exact postKeeps inv ok
  | poll number => exact pollKeeps inv careful ok

theorem carefulRunInv (size : Size) (admin : Bool) (id : Nat) {s : State}
    (run : Relation.ReflTransGen CarefulStep (initial size admin id) s) : Inv size s := by
  induction run with
  | refl => exact initialInv size admin id
  | tail _ go ih => exact carefulStepKeeps ih go

theorem oldestReady {size : Size} {s : State} (inv : Inv size s) {p : Nat × QcEntry}
    (oldest : s.posts[s.takes.length]? = some p) : ∃ t, step s (.poll p.1) = some t := by
  have made : s.takes.length < s.posts.length := (List.getElem?_eq_some_iff.mp oldest).1
  have held : p.1 ∈ s.outstanding := by
    rw [inv.waiting.mem_iff,List.drop_eq_getElem_cons made,(List.getElem?_eq_some_iff.mp oldest).2,
      List.map_cons,List.cons_append]
    exact List.mem_cons_self
  obtain ⟨sub,found,own⟩ := inv.answered p (List.mem_of_getElem? oldest)
  obtain ⟨cell,tagged⟩ := inv.ring.new s.takes.length p.2 (Nat.le_refl _) (by simp [oldest])
  have idx : s.mem.qpair.cmpq.idx = s.takes.length % size.comp := by rw [inv.cmp]
  rw [tagFirstPass inv.first] at tagged
  simp only [step,if_pos held,found,bind,Option.bind,nvmePciPollCompletion,idx,cell,inv.phase,
    tagged,own,ringbufferAllocate]
  simp

theorem invFaithful {size : Size} {s : State} (inv : Inv size s) : Faithful s where
  inOrder := inv.inOrder
  once := by
    have numbers : s.takes.map Take.number = (s.posts.take s.takes.length).map Prod.fst := by
      conv_lhs => rw [inv.inOrder]
      rw [List.map_map]
      rfl
    have unique : (s.posts.map Prod.fst).Nodup :=
      (List.nodup_append.mp (inv.tally.nodup_iff.mpr List.nodup_range)).1
    rw [numbers]
    exact unique.sublist ((List.take_sublist _ _).map _)
  ready := fun _ oldest => oldestReady inv oldest
  phase := by rw [inv.phase,inv.cmp,tagFirstPass inv.first]

/-- In every run of careful steps, over any number of commands and in any order, polls
deliver the completions of their own submissions and the expected tag is the controller's. -/
theorem carefulRunFaithful (size : Size) (admin : Bool) (id : Nat) {s : State}
    (run : Relation.ReflTransGen CarefulStep (initial size admin id) s) : Faithful s :=
  invFaithful (carefulRunInv size admin id run)

theorem lastSlotLosesPhase {size : Size} {s t : State} {number : Nat} (inv : Inv size s)
    (last : s.mem.qpair.cmpq.idx + 1 = s.mem.qpair.cmpq.objs) (ok : step s (.poll number) = some t) :
    t.takes.length = size.comp ∧ t.mem.qpair.phase = true ∧ ¬ Faithful t := by
  obtain ⟨_,sub,_,status,ret,mem,left,rfl⟩ := polled ok
  have count : s.takes.length + 1 = size.comp := by
    rw [inv.cmp] at last
    simpa only [Nat.mod_eq_of_lt inv.first] using last
  have kept : mem.qpair.phase = true ∧ mem.qpair.cmpq.objs = size.comp := by
    unfold nvmePciPollCompletion at left
    simp only [ringbufferAllocate] at left
    split at left <;> try contradiction
    simp only [Option.some.injEq,Prod.mk.injEq] at left
    obtain ⟨_,_,rfl⟩ := left
    have atLast : s.mem.qpair.cmpq.idx = s.mem.qpair.cmpq.objs - 1 := by omega
    have beyond : s.mem.qpair.cmpq.idx + 1 ≥ s.mem.qpair.cmpq.objs := by omega
    refine ⟨?_,by simp only [inv.cmp]⟩
    simp only [if_pos atLast,if_pos beyond,Bool.not_not,inv.phase]
  refine ⟨by simpa using count,kept.1,?_⟩
  intro faithful
  have wanted := faithful.phase
  simp only [List.length_append,List.length_singleton,count,kept.1,kept.2] at wanted
  have flipped := tagNextPass size.compPos 0
  rw [Nat.zero_add,← wanted,tagFirstPass size.compPos] at flipped
  cases flipped

structure Rounds (size : Size) (admin : Bool) (id k : Nat) (s : State) : Prop where
  inv : Inv size s
  own : s.admin = admin ∧ s.mem.qpair.id = id
  counts : s.issued.length = k ∧ s.posts.length = k ∧ s.takes.length = k
  idle : s.outstanding = []
  left : ∀ j < k, (s.mem.cq j).phase = true ∧ (s.mem.cq j).cid = commandId admin id (j % size.sub)

variable {size : Size} {admin : Bool} {id k : Nat} {s : State}

theorem roundPosted (two : 1 < size.sub) (below : k < size.comp) (rounds : Rounds size admin id k s) :
    ∃ t, Relation.ReflTransGen CarefulStep s t ∧ Inv size t ∧ t.admin = admin ∧ t.mem.qpair.id = id ∧
      t.issued.length = k + 1 ∧ t.takes.length = k ∧ t.outstanding = [k] ∧ t.posts.length = k + 1 ∧
      (∃ e, t.posts[k]? = some (k,e)) ∧
      ∀ j < k + 1, (t.mem.cq j).phase = true ∧ (t.mem.cq j).cid = commandId admin id (j % size.sub) := by
  obtain ⟨inv,⟨rfl,rfl⟩,⟨issued,posts,takes⟩,idle,left⟩ := rounds
  have room : s.outstanding.length + 1 < s.mem.qpair.subq.objs := by simpa [idle,inv.sub] using two
  let sent := nvmePciSubmitCommand s.admin s.mem QsEntry.zero
  let t : State := { s with
    mem := sent.2
    issued := s.issued ++ [(s.mem.qpair.subq.idx,sent.1)]
    pending := s.pending ++ [s.issued.length]
    outstanding := s.outstanding ++ [s.issued.length] }
  have submit : step s (.submit QsEntry.zero) = some t := by simp only [step,if_pos room]; rfl
  have careful : Careful s (.submit QsEntry.zero) := by simp [Careful,idle]
  have invT := submitKeeps inv careful submit
  let e : QcEntry := { QcEntry.zero with cid := sent.1.cid, phase := true }
  have numbered : t.issued[k]? = some (s.mem.qpair.subq.idx,sent.1) := by
    simp [t,issued]
  have allowed : postAllowed t k e := by
    refine ⟨by simp [t,issued],⟨_,numbered,rfl⟩,?_⟩
    have objs : t.mem.qpair.cmpq.objs = size.comp := by rw [invT.cmp]
    rw [objs,show t.posts.length = k from posts,tagFirstPass below]
  let u : State := { t with
    mem := { t.mem with cq := Function.update t.mem.cq (t.posts.length % t.mem.qpair.cmpq.objs) e }
    pending := t.pending.erase k
    posts := t.posts ++ [(k,e)] }
  have post : step t (.post k e) = some u := by simp only [step,if_pos allowed]; rfl
  have slot : t.posts.length % t.mem.qpair.cmpq.objs = k := by
    have objs : t.mem.qpair.cmpq.objs = size.comp := by rw [invT.cmp]
    rw [objs,show t.posts.length = k from posts,Nat.mod_eq_of_lt below]
  refine ⟨u,.tail (.single ⟨_,careful,submit⟩) ⟨.post k e,trivial,post⟩,postKeeps invT post,rfl,rfl,?_,takes,?_,?_,
    ⟨e,?_⟩,?_⟩
  · simp [u,t,issued]
  · simp [u,t,idle,issued]
  · simp [u,t,posts]
  · simp [u,t,posts]
  · intro j upTo
    have cell : u.mem.cq j = if j = k then e else s.mem.cq j := by
      simp only [u,slot,Function.update_apply]
      rfl
    rw [cell]
    split
    · rename_i same
      subst same
      refine ⟨rfl,?_⟩
      have idx : s.mem.qpair.subq.idx = j % size.sub := by rw [inv.sub,issued]
      simp [e,sent,nvmePciSubmitCommand,ringbufferAllocate,idx]
    · exact left j (by omega)

theorem roundsReached (size : Size) (admin : Bool) (id : Nat) (two : 1 < size.sub) (below : k < size.comp) :
    ∃ s, Relation.ReflTransGen CarefulStep (initial size admin id) s ∧ Rounds size admin id k s := by
  induction k with
  | zero =>
    exact ⟨_,.refl,initialInv size admin id,⟨rfl,rfl⟩,⟨rfl,rfl,rfl⟩,rfl,by omega⟩
  | succ k ih =>
    obtain ⟨s,run,rounds⟩ := ih (by omega)
    obtain ⟨t,more,inv,own,same,issued,takes,held,posts,⟨e,oldest⟩,left⟩ :=
      roundPosted two (by omega) rounds
    obtain ⟨u,poll⟩ := oldestReady inv (by rw [takes]; exact oldest)
    have careful : Careful t (.poll k) := by
      simpa only [Careful,inv.cmp,takes,Nat.mod_eq_of_lt (show k < size.comp by omega)] using below
    have kept := pollKeeps inv careful poll
    refine ⟨u,run.trans (more.tail ⟨_,careful,poll⟩),?_⟩
    obtain ⟨_,sub,_,status,ret,mem,done,rfl⟩ := polled poll
    obtain ⟨_,_,_,_,cq,_,id,_,_⟩ := pollLeft done
    exact ⟨kept,⟨own,id.trans same⟩,⟨issued,posts,by simp [takes]⟩,by simp [held],by simpa only [cq] using left⟩

theorem carefulIsStep {s t : State} (run : Relation.ReflTransGen CarefulStep s t) :
    Relation.ReflTransGen Step s t :=
  Relation.ReflTransGen.mono (p := Step) (fun _ _ ⟨a,_,ok⟩ => ⟨a,ok⟩) _ _ run

structure PassDone (size : Size) (s : State) : Prop where
  counts : s.posts.length = size.comp ∧ s.takes.length = size.comp
  idle : s.outstanding = []
  sub : s.mem.qpair.subq = ⟨size.sub,0⟩
  cmp : s.mem.qpair.cmpq.idx = 0
  phase : s.mem.qpair.phase = true
  first : (s.mem.cq 0).phase = true ∧ (s.mem.cq 0).cid = commandId s.admin s.mem.qpair.id 0

theorem passReached (size : Size) (admin : Bool) (id : Nat) (two : 1 < size.sub) (whole : size.sub ∣ size.comp) :
    ∃ s, Relation.ReflTransGen Step (initial size admin id) s ∧ PassDone size s := by
  have pos := size.compPos
  have final : size.comp - 1 < size.comp := by omega
  obtain ⟨s,run,rounds⟩ := roundsReached size admin id two final
  obtain ⟨t,more,inv,rfl,rfl,issued,takes,held,posts,⟨e,oldest⟩,left⟩ := roundPosted two final rounds
  rw [Nat.sub_add_cancel pos] at issued posts left
  obtain ⟨u,poll⟩ := oldestReady inv (by rw [takes]; exact oldest)
  have last : t.mem.qpair.cmpq.idx + 1 = t.mem.qpair.cmpq.objs := by
    rw [inv.cmp]
    simp only [takes,Nat.mod_eq_of_lt final]
    omega
  obtain ⟨full,phase,_⟩ := lastSlotLosesPhase inv last poll
  refine ⟨u,(carefulIsStep (run.trans more)).tail ⟨_,poll⟩,?_⟩
  obtain ⟨_,_,_,status,ret,mem,done,rfl⟩ := polled poll
  obtain ⟨_,_,_,_,cq,subq,sameId,cmpq,_⟩ := pollLeft done
  constructor
  case counts => exact ⟨posts,full⟩
  case idle => simp [held]
  case sub =>
    simp only [subq,inv.sub,issued,Nat.mod_eq_zero_of_dvd whole]
  case cmp =>
    simp only [cmpq,inv.cmp,ringbufferAllocate,takes,Nat.mod_eq_of_lt final]
    rw [Nat.sub_add_cancel pos,Nat.mod_self]
  case phase => exact phase
  case first => simpa only [cq,sameId,Nat.zero_mod] using left 0 pos

theorem staleAccepted (two : 1 < size.sub) (done : PassDone size s) :
    ∃ t, Relation.ReflTransGen Step s t ∧ t.posts.length < t.takes.length := by
  have room : s.outstanding.length + 1 < s.mem.qpair.subq.objs := by
    simpa [done.idle,done.sub] using two
  let sent := nvmePciSubmitCommand s.admin s.mem QsEntry.zero
  let t : State := { s with
    mem := sent.2
    issued := s.issued ++ [(s.mem.qpair.subq.idx,sent.1)]
    pending := s.pending ++ [s.issued.length]
    outstanding := s.outstanding ++ [s.issued.length] }
  have submit : step s (.submit QsEntry.zero) = some t := by simp only [step,if_pos room]; rfl
  have held : s.issued.length ∈ t.outstanding := by simp [t]
  have found : t.issued[s.issued.length]? = some (s.mem.qpair.subq.idx,sent.1) := by simp [t]
  have idx : t.mem.qpair.cmpq.idx = 0 := done.cmp
  have stale : (t.mem.cq 0).phase = t.mem.qpair.phase ∧ (t.mem.cq 0).cid = sent.1.cid := by
    refine ⟨done.first.1.trans done.phase.symm,done.first.2.trans ?_⟩
    simp [sent,nvmePciSubmitCommand,ringbufferAllocate,done.sub]
  obtain ⟨u,poll⟩ : ∃ u, step t (.poll s.issued.length) = some u := by
    simp only [step,if_pos held,found,bind,Option.bind,nvmePciPollCompletion,idx,stale.1,stale.2]
    simp
  refine ⟨u,.tail (.single ⟨_,submit⟩) ⟨_,poll⟩,?_⟩
  obtain ⟨_,_,_,_,_,_,_,rfl⟩ := polled poll
  simp [t,done.counts.1,done.counts.2]

theorem faithfulWithin {s : State} (faithful : Faithful s) : s.takes.length ≤ s.posts.length := by
  have lengths := congrArg List.length faithful.inOrder
  rw [List.length_map,List.length_take] at lengths
  omega

theorem staleCompletionTaken : ¬ ∀ s, Relation.ReflTransGen Step (initial driverSize false 1) s → Faithful s := by
  intro claimed
  obtain ⟨s,run,done⟩ := passReached driverSize false 1 (by decide) (by decide)
  obtain ⟨t,more,beyond⟩ := staleAccepted (by decide) done
  have within := faithfulWithin (claimed t (run.trans more))
  omega

theorem carefulRunFaithfulRounds : ∃ s, s.takes.length = 255 ∧ Faithful s := by
  obtain ⟨s,run,rounds⟩ := roundsReached driverSize false 1 (k := 255) (by decide) (by decide)
  exact ⟨s,rounds.counts.2.2,carefulRunFaithful driverSize false 1 run⟩

end Kdrivers.NvmeQueue
