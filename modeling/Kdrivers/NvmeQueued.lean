import Kdrivers.NvmeProcessors
import Kdrivers.NvmeTransport

/-! The commands of several processors on their way through the queue pairs of a PCI transport
(pci.c) to a controller that carries them out in any order. The processors see each command
as one turn at the namespace. -/
namespace Kdrivers.NvmeQueued
open Bytes Processes NvmeNamespace NvmeProcessors NvmeQueue NvmeTransport

def entryOf (mptr prp1 : Nat) (cmd : Command) : QsEntry := ⟨cmd.opcode,0,cmd.nsid,mptr,prp1,0,cmd.cdw10,cmd.cdw11,cmd.cdw12⟩
def commandOf (entry : QsEntry) : Command := ⟨entry.opcode,entry.nsid,entry.cdw10,entry.cdw11,entry.cdw12⟩

/- A processor at its queue pair: what it does next, whether it waits for a completion, the
page of its command, and the status once the controller has carried the command out. -/
structure Lane (ρ : Type) where
  caller : Process (Command × Mem) (Nat × Mem) ρ
  waiting : Bool
  page : Mem
  executed : Option Nat

structure System (ρ : Type) (count : Nat) where
  transport : Transport count
  lanes : Fin count → Lane ρ
  bytes : Mem

section
variable {ρ : Type} {count : Nat} (m : BitFields.Masked) (props : Props) (lbaSize : Nat)

def begin (bar : Mem) (sizes : Fin count → Size) (bytes : Mem) (callers : Fin count → Process (Command × Mem) (Nat × Mem) ρ) :
    System ρ count :=
  ⟨NvmeTransport.start bar sizes,fun n => ⟨callers n,false,zeros,none⟩,bytes⟩

def fetched (s : System ρ count) (n : Fin count) (number : Nat) : Command :=
  let memory := (s.transport.pairs n).mem
  commandOf (memory.sq (number % memory.qpair.subq.objs))

def carryOut (s : System ρ count) (n : Fin count) (number status : Nat) : System ρ count :=
  let ((status,page),bytes) := (service lbaSize).serve (fetched s n number,(s.lanes n).page) status s.bytes
  ⟨s.transport,Function.update s.lanes n { s.lanes n with page := page, executed := some status },bytes⟩

inductive Go (s : System ρ count) : System ρ count → Prop where
  | submit {n : Fin count} {cmd : Command} {data : Mem} {next : Nat × Mem → Process (Command × Mem) (Nat × Mem) ρ}
      {t : Transport count} (mptr prp1 : Nat) (caller : (s.lanes n).caller = .access (cmd,data) next)
      (idle : (s.lanes n).waiting = false) (turned : turn m props s.transport n (.submit (entryOf mptr prp1 cmd)) = some t) :
      Go s ⟨t,Function.update s.lanes n ⟨.access (cmd,data) next,true,data,none⟩,s.bytes⟩
  | execute {n : Fin count} {number : Nat} (status : Nat) (pending : number ∈ (s.transport.pairs n).pending)
      (new : (s.lanes n).executed = none) : Go s (carryOut lbaSize s n number status)
  | post {n : Fin count} {number : Nat} {entry : QcEntry} {t : Transport count}
      (executed : (s.lanes n).executed = some entry.status) (turned : turn m props s.transport n (.post number entry) = some t) :
      Go s ⟨t,s.lanes,s.bytes⟩
  | poll {n : Fin count} {number : Nat} {q : Command × Mem} {next : Nat × Mem → Process (Command × Mem) (Nat × Mem) ρ}
      {take : Take} {t : Transport count} (caller : (s.lanes n).caller = .access q next)
      (waits : (s.lanes n).waiting = true) (turned : turn m props s.transport n (.poll number) = some t)
      (last : (t.pairs n).takes.getLast? = some take) :
      Go s ⟨t,Function.update s.lanes n ⟨next (take.status,(s.lanes n).page),false,(s.lanes n).page,none⟩,s.bytes⟩

def Spared (sizes : Fin count → Size) (s : System ρ count) : Prop := ∀ n, (s.transport.pairs n).takes.length < (sizes n).comp

def SparedGo (sizes : Fin count → Size) (s t : System ρ count) : Prop := Go m props lbaSize s t ∧ Spared sizes t

end

inductive Matches {ρ : Type} (size : Size) (pair : State) (lane : Lane ρ) (now : Process (Command × Mem) (Nat × Mem) ρ) : Prop where
  | idle (quiet : pair.outstanding = []) (idle : lane.waiting = false) (same : now = lane.caller)
  | sent {n : Nat} {cmd : Command} {data : Mem} {next : Nat × Mem → Process (Command × Mem) (Nat × Mem) ρ}
      (out : pair.outstanding = [n]) (pending : pair.pending = [n]) (entry : commandOf (pair.mem.sq (n % size.sub)) = cmd)
      (page : lane.page = data) (caller : lane.caller = .access (cmd,data) next) (waits : lane.waiting = true)
      (new : lane.executed = none) (same : now = lane.caller)
  | executed {n status : Nat} {q : Command × Mem} {next : Nat × Mem → Process (Command × Mem) (Nat × Mem) ρ}
      (out : pair.outstanding = [n]) (pending : pair.pending = [n]) (caller : lane.caller = .access q next)
      (waits : lane.waiting = true) (done : lane.executed = some status) (same : now = next (status,lane.page))
  | posted {n : Nat} {entry : QcEntry} {q : Command × Mem} {next : Nat × Mem → Process (Command × Mem) (Nat × Mem) ρ}
      (out : pair.outstanding = [n]) (pending : pair.pending = []) (caller : lane.caller = .access q next)
      (waits : lane.waiting = true) (done : lane.executed = some entry.status)
      (oldest : pair.posts[pair.takes.length]? = some (n,entry)) (same : now = next (entry.status,lane.page))

section Pair
variable {ρ : Type} {size : Size} {pair after : State} {lane : Lane ρ} {now : Process (Command × Mem) (Nat × Mem) ρ}

theorem nothingPosted (inv : Inv size pair) {n : Nat} (out : pair.outstanding = [n]) (pending : pair.pending = [n]) :
    pair.posts.length = pair.takes.length := by
  have lengths := inv.waiting.length_eq
  rw [out,pending] at lengths
  simp only [List.length_append,List.length_map,List.length_drop,List.length_singleton] at lengths
  have within := inv.takesWithin
  omega

theorem sendMatches (inv : Inv size pair) {cmd : Command} {data : Mem}
    {next : Nat × Mem → Process (Command × Mem) (Nat × Mem) ρ} {mptr prp1 : Nat} (idle : lane.waiting = false)
    (caller : lane.caller = .access (cmd,data) next) (before : Matches size pair lane now)
    (ok : step pair (.submit (entryOf mptr prp1 cmd)) = some after) :
    Inv size after ∧ Matches size after ⟨.access (cmd,data) next,true,data,none⟩ now := by
  cases before with
  | idle quiet _ same =>
    have careful : Careful pair (.submit (entryOf mptr prp1 cmd)) := by
      intro n held
      rw [quiet] at held
      cases held
    have kept := submitKeeps inv careful ok
    obtain ⟨_,rfl⟩ := submitted ok
    have none : pair.pending = [] := by
      have lengths := inv.waiting.length_eq
      rw [quiet,List.length_append,List.length_nil] at lengths
      exact List.length_eq_zero_iff.mp (by omega)
    have slot : pair.mem.qpair.subq.idx = pair.issued.length % size.sub := by rw [inv.sub]
    refine ⟨kept,.sent (n := pair.issued.length) ?_ ?_ ?_ rfl rfl rfl rfl (same.trans caller)⟩
    · rw [quiet,List.nil_append]
    · rw [none,List.nil_append]
    · simp only [nvmePciSubmitCommand,ringbufferAllocate,slot,Function.update_self]
      rfl
  | sent _ _ _ _ _ waits => cases idle.symm.trans waits
  | executed _ _ _ waits => cases idle.symm.trans waits
  | posted _ _ _ waits => cases idle.symm.trans waits

theorem postMatches (inv : Inv size pair) {number : Nat} {entry : QcEntry} (executed : lane.executed = some entry.status)
    (before : Matches size pair lane now) (ok : step pair (.post number entry) = some after) :
    Inv size after ∧ Matches size after lane now := by
  refine ⟨postKeeps inv ok,?_⟩
  obtain ⟨⟨waiting,_⟩,rfl⟩ := posted ok
  cases before with
  | idle quiet =>
    have held := inv.waiting.mem_iff.mpr (List.mem_append_right _ waiting)
    rw [quiet] at held
    cases held
  | sent _ _ _ _ _ _ new => cases new.symm.trans executed
  | @executed n status q next out pending caller waits done same =>
    have counts := nothingPosted inv out pending
    rw [pending] at waiting
    obtain rfl := List.mem_singleton.mp waiting
    cases executed.symm.trans done
    have none : pair.pending.erase number = [] := by rw [pending,List.erase_cons_head]
    have oldest : (pair.posts ++ [(number,entry)])[pair.takes.length]? = some (number,entry) := by
      rw [← counts,List.getElem?_append_right (Nat.le_refl _),Nat.sub_self,List.getElem?_cons_zero]
    exact .posted out none caller waits executed oldest same
  | posted _ pending =>
    rw [pending] at waiting
    cases waiting

theorem sparedCareful (inv : Inv size pair) {number : Nat} (ok : step pair (.poll number) = some after)
    (spared : after.takes.length < size.comp) : Careful pair (.poll number) := by
  obtain ⟨_,_,_,_,_,_,_,rfl⟩ := polled ok
  simp only [List.length_append,List.length_singleton] at spared
  simp only [Careful,inv.cmp]
  rwa [Nat.mod_eq_of_lt inv.first]

theorem pollMatches (inv : Inv size pair) {number : Nat} {q : Command × Mem}
    {next : Nat × Mem → Process (Command × Mem) (Nat × Mem) ρ} {take : Take} (careful : Careful pair (.poll number))
    (caller : lane.caller = .access q next) (before : Matches size pair lane now)
    (ok : step pair (.poll number) = some after) (last : after.takes.getLast? = some take) :
    Inv size after ∧ Matches size after ⟨next (take.status,lane.page),false,lane.page,none⟩ now := by
  have kept := pollKeeps inv careful ok
  refine ⟨kept,?_⟩
  obtain ⟨held,sub,_,status,ret,mem,left,rfl⟩ := polled ok
  obtain ⟨phase,_,_,_,_,_,_,_,_⟩ := pollLeft left
  obtain ⟨p,oldest,_⟩ := inv.acceptedPosted phase
  have made : pair.takes.length < pair.posts.length := (List.getElem?_eq_some_iff.mp oldest).1
  cases before with
  | idle quiet =>
    rw [quiet] at held
    cases held
  | sent out pending =>
    have counts := nothingPosted inv out pending
    omega
  | executed out pending =>
    have counts := nothingPosted inv out pending
    omega
  | @posted n entry q' next' out _ caller' _ _ oldest' same =>
    cases caller.symm.trans caller'
    have order := kept.inOrder
    simp only [List.length_append,List.length_singleton] at order
    have taken : take = delivered (n,entry) := by
      have ends : (pair.posts.take (pair.takes.length + 1)).getLast? = some (n,entry) := by
        rw [List.take_succ_eq_append_getElem made,List.getLast?_concat,← List.getElem?_eq_getElem made,oldest']
      have mapped := congrArg List.getLast? order
      rw [List.getLast?_map,ends,last] at mapped
      exact Option.some.inj mapped
    refine .idle ?_ rfl ?_
    · rw [out] at held
      obtain rfl := List.mem_singleton.mp held
      simp only [out,List.erase_cons_head]
    · rw [same,taken]
      rfl

end Pair

section
variable {ρ : Type} {count : Nat} {m : BitFields.Masked} {props : Props} {lbaSize : Nat} {sizes : Fin count → Size}

theorem turnStep {t u : Transport count} {n : Fin count} {a : Action} (go : turn m props t n a = some u) : ∃ s,
    step (t.pairs n) a = some s ∧ u.pairs = Function.update t.pairs n s := by
  unfold turn at go
  simp only [bind,Option.bind_eq_some_iff] at go
  obtain ⟨s,ok,made⟩ := go
  cases made
  exact ⟨s,ok,rfl⟩

theorem stepTurn (m : BitFields.Masked) (props : Props) {t : Transport count} {n : Fin count} {a : Action} {s : State}
    (ok : step (t.pairs n) a = some s) : ∃ u, turn m props t n a = some u ∧ u.pairs = Function.update t.pairs n s := by
  unfold turn
  simp only [ok,bind,Option.bind]
  exact ⟨_,rfl,rfl⟩

structure Simulates (sizes : Fin count → Size) (s : System ρ count)
    (u : Shared (Command × Mem) (Nat × Mem) Nat Nat UInt8 ρ (Fin count)) : Prop where
  store : u.store = s.bytes
  lanes : ∀ n, Inv (sizes n) (s.transport.pairs n) ∧ Matches (sizes n) (s.transport.pairs n) (s.lanes n) (u.processes n)

variable {s t : System ρ count} {u : Shared (Command × Mem) (Nat × Mem) Nat Nat UInt8 ρ (Fin count)}

theorem lanesUpdate (lanes : ∀ n, Inv (sizes n) (s.transport.pairs n) ∧
      Matches (sizes n) (s.transport.pairs n) (s.lanes n) (u.processes n)) {n : Fin count} {pair : State} {lane : Lane ρ}
    {now : Process (Command × Mem) (Nat × Mem) ρ} (own : Inv (sizes n) pair ∧ Matches (sizes n) pair lane now) (k : Fin count) :
    Inv (sizes k) (Function.update s.transport.pairs n pair k) ∧
      Matches (sizes k) (Function.update s.transport.pairs n pair k) (Function.update s.lanes n lane k)
        (Function.update u.processes n now k) := by
  by_cases same : k = n
  · subst same
    rwa [Function.update_self,Function.update_self,Function.update_self]
  · rw [Function.update_of_ne same,Function.update_of_ne same,Function.update_of_ne same]
    exact lanes k

theorem goRefines (simulates : Simulates sizes s u) (go : SparedGo m props lbaSize sizes s t) : ∃ v,
    Relation.ReflTransGen (Turn (service lbaSize)) u v ∧ Simulates sizes t v := by
  obtain ⟨store,lanes⟩ := simulates
  obtain ⟨go,spared⟩ := go
  cases go with
  | @submit n cmd data next after mptr prp1 caller idle turned =>
    obtain ⟨pair,ok,pairs⟩ := turnStep turned
    have own := lanesUpdate lanes (sendMatches (lanes n).1 idle caller (lanes n).2 ok)
    rw [Function.update_eq_self] at own
    exact ⟨u,.refl,store,by rwa [pairs]⟩
  | @execute n number status pending new =>
    obtain ⟨inv,matched⟩ := lanes n
    cases matched with
    | idle quiet =>
      have held := inv.waiting.mem_iff.mpr (List.mem_append_right _ pending)
      rw [quiet] at held
      cases held
    | @sent k cmd data next out one entry page caller waits _ same =>
      rw [one] at pending
      obtain rfl := List.mem_singleton.mp pending
      have command : fetched s n number = cmd := by
        rw [← entry,fetched,inv.sub]
      have served : Turn (service lbaSize) u _ := .serve status (same.trans caller)
      rw [store] at served
      refine ⟨_,.single served,?_⟩
      rw [← command,← page]
      refine ⟨rfl,?_⟩
      have now : Matches (sizes n) (s.transport.pairs n) { s.lanes n with
          page := ((service lbaSize).serve (fetched s n number,(s.lanes n).page) status s.bytes).1.2
          executed := some ((service lbaSize).serve (fetched s n number,(s.lanes n).page) status s.bytes).1.1 }
          (next ((service lbaSize).serve (fetched s n number,(s.lanes n).page) status s.bytes).1) :=
        .executed out one caller waits rfl rfl
      have own := lanesUpdate lanes ⟨inv,now⟩
      rw [Function.update_eq_self] at own
      exact own
    | executed _ _ _ _ done => cases new.symm.trans done
    | posted _ none =>
      rw [none] at pending
      cases pending
  | @post n number entry after executed turned =>
    obtain ⟨pair,ok,pairs⟩ := turnStep turned
    have own := lanesUpdate lanes (postMatches (lanes n).1 executed (lanes n).2 ok)
    rw [Function.update_eq_self,Function.update_eq_self] at own
    exact ⟨u,.refl,store,by rwa [pairs]⟩
  | @poll n number q next take after caller _ turned last =>
    obtain ⟨pair,ok,pairs⟩ := turnStep turned
    have room := spared n
    rw [pairs,Function.update_self] at last room
    have careful := sparedCareful (lanes n).1 ok room
    have own := lanesUpdate lanes (pollMatches (lanes n).1 careful caller (lanes n).2 ok last)
    rw [Function.update_eq_self n u.processes] at own
    exact ⟨u,.refl,store,by rwa [pairs]⟩

/-! A processor that waits can be answered, unless its answer takes the last slot. -/

variable (m props lbaSize)

theorem pollsPosted (spared : Spared sizes s) {n : Fin count} (inv : Inv (sizes n) (s.transport.pairs n))
    (room : (s.transport.pairs n).takes.length + 1 < (sizes n).comp) {q : Command × Mem}
    {next : Nat × Mem → Process (Command × Mem) (Nat × Mem) ρ} (caller : (s.lanes n).caller = .access q next)
    (waits : (s.lanes n).waiting = true) {p : Nat × QcEntry}
    (oldest : (s.transport.pairs n).posts[(s.transport.pairs n).takes.length]? = some p) : ∃ t answer,
    SparedGo m props lbaSize sizes s t ∧ (t.lanes n).waiting = false ∧ (t.lanes n).caller = next answer := by
  obtain ⟨pair,ok⟩ := oldestReady inv oldest
  obtain ⟨after,turned,pairs⟩ := stepTurn m props ok
  obtain ⟨_,sub,_,status,ret,mem,_,rfl⟩ := polled ok
  have last : (after.pairs n).takes.getLast? = some ⟨p.1,status,ret⟩ := by
    rw [pairs,Function.update_self]
    exact List.getLast?_concat
  refine ⟨_,(status,(s.lanes n).page),⟨.poll caller waits turned last,fun k => ?_⟩,?_⟩
  · change (after.pairs k).takes.length < _
    rw [pairs]
    by_cases same : k = n
    · subst same
      rw [Function.update_self]
      simpa using room
    · rw [Function.update_of_ne same]
      exact spared k
  · dsimp only
    rw [Function.update_self]
    exact ⟨rfl,rfl⟩

theorem postsExecuted (spared : Spared sizes s) {n : Fin count} (inv : Inv (sizes n) (s.transport.pairs n)) {k status : Nat}
    (out : (s.transport.pairs n).outstanding = [k]) (pending : (s.transport.pairs n).pending = [k])
    (done : (s.lanes n).executed = some status) : ∃ t p, SparedGo m props lbaSize sizes s t ∧ t.lanes = s.lanes ∧
      Inv (sizes n) (t.transport.pairs n) ∧ (t.transport.pairs n).takes = (s.transport.pairs n).takes ∧
      (t.transport.pairs n).posts[(t.transport.pairs n).takes.length]? = some p := by
  have held : k ∈ (s.transport.pairs n).outstanding := by
    rw [out]
    exact List.mem_singleton_self k
  obtain ⟨sub,found⟩ := inv.outstandingIssued held
  let entry : QcEntry := { QcEntry.zero with
    cid := sub.2.cid
    phase := TaggedRing.tag (s.transport.pairs n).mem.qpair.cmpq.objs (s.transport.pairs n).posts.length
    status := status }
  have allowed : postAllowed (s.transport.pairs n) k entry := by
    refine ⟨?_,⟨sub,found,rfl⟩,rfl⟩
    rw [pending]
    exact List.mem_singleton_self k
  obtain ⟨pair,ok⟩ : ∃ pair, step (s.transport.pairs n) (.post k entry) = some pair := by
    rw [step,if_pos allowed]
    exact ⟨_,rfl⟩
  have kept := postKeeps inv ok
  have counts := nothingPosted inv out pending
  obtain ⟨after,turned,pairs⟩ := stepTurn m props ok
  obtain ⟨_,rfl⟩ := posted ok
  have takes : ∀ j, (after.pairs j).takes = (s.transport.pairs j).takes := by
    intro j
    rw [pairs]
    by_cases same : j = n
    · subst same
      rw [Function.update_self]
    · rw [Function.update_of_ne same]
  refine ⟨⟨after,s.lanes,s.bytes⟩,(k,entry),⟨.post done turned,fun j => ?_⟩,rfl,?_,takes n,?_⟩
  · change (after.pairs j).takes.length < _
    rw [takes]
    exact spared j
  · dsimp only
    rwa [pairs,Function.update_self]
  · dsimp only
    rw [pairs,Function.update_self]
    simp only [← counts,List.getElem?_append_right (Nat.le_refl _),Nat.sub_self,List.getElem?_cons_zero]

theorem answersExecuted (spared : Spared sizes s) {n : Fin count} (inv : Inv (sizes n) (s.transport.pairs n))
    (room : (s.transport.pairs n).takes.length + 1 < (sizes n).comp) {k status : Nat}
    (out : (s.transport.pairs n).outstanding = [k]) (pending : (s.transport.pairs n).pending = [k]) {q : Command × Mem}
    {next : Nat × Mem → Process (Command × Mem) (Nat × Mem) ρ} (caller : (s.lanes n).caller = .access q next)
    (waits : (s.lanes n).waiting = true) (done : (s.lanes n).executed = some status) : ∃ t answer,
    Relation.ReflTransGen (SparedGo m props lbaSize sizes) s t ∧ (t.lanes n).waiting = false ∧
      (t.lanes n).caller = next answer := by
  obtain ⟨between,p,posts,lanes,kept,takes,oldest⟩ := postsExecuted m props lbaSize spared inv out pending done
  obtain ⟨t,answer,polls,answered⟩ := pollsPosted m props lbaSize posts.2 kept (by rwa [takes]) (by rwa [lanes])
    (by rwa [lanes]) oldest
  exact ⟨t,answer,.tail (.single posts) polls,answered⟩

theorem waiterAnswered (simulates : Simulates sizes s u) {n : Fin count} (waits : (s.lanes n).waiting = true)
    (room : (s.transport.pairs n).takes.length + 1 < (sizes n).comp) {q : Command × Mem}
    {next : Nat × Mem → Process (Command × Mem) (Nat × Mem) ρ} (own : (s.lanes n).caller = .access q next) : ∃ t answer,
    Relation.ReflTransGen (SparedGo m props lbaSize sizes) s t ∧ (t.lanes n).waiting = false ∧
      (t.lanes n).caller = next answer := by
  obtain ⟨inv,matched⟩ := simulates.lanes n
  have spared : Spared sizes s := fun k => (simulates.lanes k).1.first
  cases matched with
  | idle _ idle => cases idle.symm.trans waits
  | @sent k _ _ _ out pending _ _ _ _ new =>
    have executes : SparedGo m props lbaSize sizes s (carryOut lbaSize s n k 0) := ⟨.execute 0 (by
      rw [pending]
      exact List.mem_singleton_self k) new,spared⟩
    have lane : (carryOut lbaSize s n k 0).lanes n = { s.lanes n with
        page := ((service lbaSize).serve (fetched s n k,(s.lanes n).page) 0 s.bytes).1.2
        executed := some ((service lbaSize).serve (fetched s n k,(s.lanes n).page) 0 s.bytes).1.1 } := Function.update_self ..
    obtain ⟨t,answer,rest,answered⟩ := answersExecuted m props lbaSize (s := carryOut lbaSize s n k 0) spared inv room out
      pending (by rw [lane]; exact own) (by rw [lane]; exact waits) (congrArg Lane.executed lane)
    exact ⟨t,answer,.head executes rest,answered⟩
  | executed out pending _ _ done => exact answersExecuted m props lbaSize spared inv room out pending own waits done
  | posted _ _ _ _ _ oldest =>
    obtain ⟨t,answer,polls,answered⟩ := pollsPosted m props lbaSize spared inv room own waits oldest
    exact ⟨t,answer,.single polls,answered⟩

variable {m props lbaSize}

theorem beginSimulates (bar : Mem) (bytes : Mem) (callers : Fin count → Process (Command × Mem) (Nat × Mem) ρ) :
    Simulates sizes (begin bar sizes bytes callers) (Processes.start bytes callers) :=
  ⟨rfl,fun n => ⟨initialInv (sizes n) _ n,.idle rfl rfl rfl⟩⟩

theorem runRefines {start : System ρ count} {first : Shared (Command × Mem) (Nat × Mem) Nat Nat UInt8 ρ (Fin count)}
    (simulates : Simulates sizes start first) (run : Relation.ReflTransGen (SparedGo m props lbaSize sizes) start s) : ∃ u,
    Relation.ReflTransGen (Turn (service lbaSize)) first u ∧ Simulates sizes s u := by
  induction run with
  | refl => exact ⟨first,.refl,simulates⟩
  | tail _ go ih =>
    obtain ⟨u,turns,held⟩ := ih
    obtain ⟨v,more,after⟩ := goRefines held go
    exact ⟨v,turns.trans more,after⟩

/-- Every run of processors that send commands through their queue pairs, the controller and
its completions, interleaved in any way in which no pair comes to the last slot of its completion
ring, shows the processors and the namespace what some sequence of whole commands does; and a
processor that waits can always be answered, as long as its answer does not take that slot. -/
theorem queuedRefines {bar bytes : Mem} {callers : Fin count → Process (Command × Mem) (Nat × Mem) ρ}
    (run : Relation.ReflTransGen (SparedGo m props lbaSize sizes) (begin bar sizes bytes callers) s) :
    (∃ u, Relation.ReflTransGen (Turn (service lbaSize)) (Processes.start bytes callers) u ∧ u.store = s.bytes ∧
      ∀ n, (s.lanes n).waiting = false → u.processes n = (s.lanes n).caller) ∧
    ∀ n q next, (s.lanes n).waiting = true → (s.lanes n).caller = .access q next →
      (s.transport.pairs n).takes.length + 1 < (sizes n).comp → ∃ t answer,
        Relation.ReflTransGen (SparedGo m props lbaSize sizes) s t ∧ (t.lanes n).waiting = false ∧
          (t.lanes n).caller = next answer := by
  obtain ⟨u,turns,simulates⟩ := runRefines (beginSimulates bar bytes callers) run
  refine ⟨⟨u,turns,simulates.store,fun n idle => ?_⟩,fun n q next waits caller room => waiterAnswered _ _ _ simulates waits room caller⟩
  obtain ⟨_,matched⟩ := simulates.lanes n
  cases matched with
  | idle _ _ same => exact same
  | sent _ _ _ _ _ waits => cases idle.symm.trans waits
  | executed _ _ _ waits => cases idle.symm.trans waits
  | posted _ _ _ waits => cases idle.symm.trans waits

end

def reader (n : Fin 2) : Process (Command × Mem) (Nat × Mem) Nat :=
  .access (pageCommand false plainState n,zeros) fun answer => .done answer.1

theorem secondSends {ρ : Type} (callers : Fin 2 → Process (Command × Mem) (Nat × Mem) ρ) {cmd : Command} {data : Mem}
    {next : Nat × Mem → Process (Command × Mem) (Nat × Mem) ρ} (caller : callers 1 = .access (cmd,data) next) : ∃ s,
    Relation.ReflTransGen (SparedGo .standard plainProps 512 fun _ => driverSize)
      (begin zeros (fun _ => driverSize) zeros callers) s ∧
      (s.lanes 1).waiting = true ∧ (s.lanes 1).caller = .access (cmd,data) next ∧ (s.transport.pairs 1).takes = [] := by
  obtain ⟨t,turned,first,none⟩ : ∃ t, turn .standard plainProps (NvmeTransport.start zeros fun _ => driverSize) (1 : Fin 2)
      (.submit (entryOf 0x2000 0x3000 cmd)) = some t ∧ (t.pairs 0).takes = [] ∧ (t.pairs 1).takes = [] := ⟨_,rfl,rfl,rfl⟩
  have spared : ∀ n : Fin 2, (t.pairs n).takes.length < driverSize.comp :=
    Fin.forall_fin_two.mpr ⟨by rw [first]; decide,by rw [none]; decide⟩
  refine ⟨_,.single ⟨.submit (n := 1) 0x2000 0x3000 caller rfl turned,spared⟩,?_,?_,none⟩
  · dsimp only
    rw [Function.update_self]
  · dsimp only
    rw [Function.update_self]

theorem queuedRefinesReaders : ∃ s : System Nat 2, (s.lanes 1).waiting = true ∧
    (∃ u, Relation.ReflTransGen (Turn (service 512)) (Processes.start zeros reader) u ∧ u.store = s.bytes ∧
      ∀ n, (s.lanes n).waiting = false → u.processes n = (s.lanes n).caller) ∧
    ∃ t answer, Relation.ReflTransGen (SparedGo .standard plainProps 512 fun _ => driverSize) s t ∧ (t.lanes 1).waiting = false ∧
      (t.lanes 1).caller = .done answer := by
  obtain ⟨s,run,waits,caller,none⟩ := secondSends reader rfl
  obtain ⟨refines,answers⟩ := queuedRefines run
  obtain ⟨t,answer,rest,idle,last⟩ := answers 1 _ _ waits caller (by rw [none]; decide)
  exact ⟨s,waits,refines,t,answer.1,rest,idle,last⟩

def writeAndRead (n : Fin 2) : Call := if n = 0 then hundred 8192 else { hundred 0 with write := false }

theorem readsOnce : ∃ cmd data next, (writeAndRead 1).caller .standard plainState 2 = .access (cmd,data) next ∧
    ∀ answer, ∃ out, next answer = .done out := by
  refine ⟨_,_,_,rfl,fun answer => ?_⟩
  by_cases failed : answer.1 ≠ 0
  · exact ⟨_,if_pos failed⟩
  · exact ⟨_,if_neg failed⟩

end Kdrivers.NvmeQueued
