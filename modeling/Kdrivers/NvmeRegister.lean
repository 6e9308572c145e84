import Kdrivers.NvmeInit

/-! The commands that create the I/O queues of a controller, which may refuse any of them
(nvme_register_io_qpair and its loop in init_nvme_namespace, namespace.c). -/
namespace Kdrivers.NvmeRegister
open Bytes BitFields NvmeQueue NvmeNamespace NvmeInit

structure Create where
  opcode : Nat
  prp1 : Nat
  cdw10 : Nat
  cdw11 : Nat
  cdw12 : Nat
  deriving DecidableEq, Repr

structure Host where
  phys : Nat → Nat
  pages : Nat → Nat
  nvmSet : Nat → Nat
  status : Nat → Nat

def qsize : Nat := 0x1000

section
variable (host : Host)

def createCq (i : Nat) (qpair : Qpair) (nvmSet irq : Nat) : Create where
  opcode := 0x5
  prp1 := host.phys (host.pages i + qsize)
  cdw10 := (qpair.id ||| (qpair.cmpq.objs - 1) <<< 16) % 2^32
  cdw11 := (1 ||| (if irq > 31 then 1 else 0) <<< 1 ||| (irq &&& 0xFFFF) <<< 16) % 2^32
  cdw12 := nvmSet

def createSq (i : Nat) (qpair : Qpair) (cmd : Create) : Create := { cmd with
  opcode := 0x1
  prp1 := host.phys (host.pages i)
  cdw10 := (qpair.id ||| (qpair.subq.objs - 1) <<< 16) % 2^32
  cdw11 := (1 ||| qpair.id <<< 16) % 2^32 }

def nvmeRegisterIoQpair (i : Nat) (qpair : Qpair) (nvmSet irq : Nat) (issued : List Create) : Nat × List Create :=
  let cmd := createCq host i qpair nvmSet irq
  let status := host.status issued.length
  let issued := issued ++ [cmd]
  if status ≠ 0 then (status ||| 1 <<< 16,issued)
  else
    let status := host.status issued.length
    let issued := issued ++ [createSq host i qpair cmd]
    if status ≠ 0 then (status ||| 2 <<< 16,issued) else (0,issued)

-- a pair that could not be registered is passed over
def registerQpairs (qs : List Qpair) (nvmSet : Nat) : Int → Nat → List Create → Outcome (List Create)
  | _,0,issued => .ret issued
  | base,n+1,issued =>
    if 0 ≤ base ∧ base < qs.length then match qs[base.toNat]? with
      | some qpair => registerQpairs qs nvmSet (base + 1) n (nvmeRegisterIoQpair host base.toNat qpair nvmSet 0 issued).2
      | none => .fault .tableIndex
    else .fault .tableIndex

def initNvmeNamespace (processors : Nat) (arg : Found) (st : Qpairs) (issued : List Create) :
    Outcome (Option NamespaceState × Qpairs × List Create) :=
  let base := (BitVec.ofNat 32 st.init).toInt
  let count := min processors st.granted
  let taken : Qpairs := { st with init := add64 st.init count }
  match arg.start with
  | .noMemory => .ret (none,st,issued)
  | .noInfo => .ret (none,taken,issued)
  | .ready lbaSize => do
    let issued ← registerQpairs host st.qs (host.nvmSet arg.nsid) base count issued
    .ret (some ⟨pageSize,lbaSize,arg.nsid,base,count⟩,taken,issued)

def initNamespaces (processors : Nat) : List Found → Qpairs → List Create →
    Outcome (List NamespaceState × Qpairs × List Create)
  | [],st,issued => .ret ([],st,issued)
  | arg::args,st,issued => do
    let (one,st,issued) ← initNvmeNamespace host processors arg st issued
    let (rest,st,issued) ← initNamespaces processors args st issued
    .ret (one.toList ++ rest,st,issued)

def initNvme (m : Masked) (dw0 : Nat → BitVec 32) (enough : Bool) (processors : Nat) (namespaces : List Found) :
    Outcome (Int × List NamespaceState × Qpairs × List Create) :=
  let nsCount := namespaces.length % 2^16
  let requested := nsCount * processors % 2^16
  let granted := nvmeRequestIoQueues m dw0 requested
  if granted = 0 then .ret (-6,[],⟨0,0,0,[]⟩,[])
  else match nvmeCreateIoQpairs enough (min requested granted) with
    | none => .ret (-7,[],⟨0,0,0,[]⟩,[])
    | some qs => do
      let (states,st,issued) ← initNamespaces host processors namespaces ⟨requested,granted,0,qs⟩ []
      .ret (0,states,st,issued)

structure Queues where
  completion : List Nat
  submission : List Nat

def Create.queue (c : Create) : Nat := c.cdw10 % 2^16
def Create.entries (c : Create) : Nat := c.cdw10 / 2^16 + 1
def Create.completionQueue (c : Create) : Nat := c.cdw11 / 2^16

/- No queue 0 and none that there is, and a submission queue only for a completion queue. -/
def Queues.Allows (q : Queues) (c : Create) : Prop := c.queue ≠ 0 ∧
  ((c.opcode = 0x5 ∧ c.queue ∉ q.completion) ∨
    (c.opcode = 0x1 ∧ c.queue ∉ q.submission ∧ c.completionQueue ∈ q.completion))

def Queues.after (q : Queues) (status : Nat) (c : Create) : Queues :=
  if status ≠ 0 then q
  else if c.opcode = 0x5 then { q with completion := c.queue::q.completion }
  else { q with submission := c.queue::q.submission }

def Accepted : Queues → Nat → List Create → Prop
  | _,_,[] => True
  | q,k,c::rest => q.Allows c ∧ Accepted (q.after (host.status k) c) (k + 1) rest

def afterAll : Queues → Nat → List Create → Queues
  | q,_,[] => q
  | q,k,c::rest => afterAll (q.after (host.status k) c) (k + 1) rest

def created (issued : List Create) : Queues := afterAll host ⟨[],[]⟩ 0 issued

def Describes (i : Nat) (c : Create) : Prop := c.queue = i + 1 ∧
  ((c.opcode = 0x5 ∧ c.prp1 = host.phys (host.pages i + qsize) ∧ c.entries * 16 = qsize) ∨
    (c.opcode = 0x1 ∧ c.prp1 = host.phys (host.pages i) ∧ c.entries * 64 = qsize ∧ c.completionQueue = i + 1))

end

section
variable {host : Host}

theorem acceptedAppend {q : Queues} {k : Nat} {first : List Create} (c : Create) :
    Accepted host q k (first ++ [c]) ↔ Accepted host q k first ∧ (afterAll host q k first).Allows c := by
  induction first generalizing q k with
  | nil => simp [Accepted,afterAll]
  | cons d first ih =>
    rw [List.cons_append,Accepted,Accepted,afterAll,ih,and_assoc]

theorem afterAppend {q : Queues} {k : Nat} {first : List Create} (c : Create) :
    afterAll host q k (first ++ [c]) = (afterAll host q k first).after (host.status (k + first.length)) c := by
  induction first generalizing q k with
  | nil => rfl
  | cons d first ih =>
    rw [List.cons_append,afterAll,afterAll,ih,List.length_cons,Nat.add_right_comm,Nat.add_assoc]

theorem wordField {id n : Nat} (low : id < 2^16) (high : n < 2^16) :
    (id ||| n <<< 16) % 2^32 = id + n * 2^16 := by
  rw [Nat.or_comm,← Nat.shiftLeft_add_eq_or_of_lt low,Nat.shiftLeft_eq,Nat.add_comm]
  exact Nat.mod_eq_of_lt (by omega)

theorem describesCq {i : Nat} (low : i + 1 < 2^16) (nvmSet irq : Nat) :
    Describes host i (createCq host i (createQpair driverSize (i + 1)) nvmSet irq) := by
  have field : (createCq host i (createQpair driverSize (i + 1)) nvmSet irq).cdw10 = i + 1 + 255 * 2^16 :=
    wordField low (show 255 < 2^16 by decide)
  have entries : (i + 1 + 255 * 2^16) / 2^16 + 1 = 256 := by omega
  refine ⟨?_,.inl ⟨rfl,rfl,?_⟩⟩
  · rw [Create.queue,field]
    omega
  · rw [Create.entries,field,entries]
    rfl

theorem describesSq {i : Nat} (low : i + 1 < 2^16) (cmd : Create) :
    Describes host i (createSq host i (createQpair driverSize (i + 1)) cmd) := by
  have field : (createSq host i (createQpair driverSize (i + 1)) cmd).cdw10 = i + 1 + 63 * 2^16 :=
    wordField low (show 63 < 2^16 by decide)
  have other : (createSq host i (createQpair driverSize (i + 1)) cmd).cdw11 = 1 + (i + 1) * 2^16 :=
    wordField (by decide) low
  have entries : (i + 1 + 63 * 2^16) / 2^16 + 1 = 64 := by omega
  refine ⟨?_,.inr ⟨rfl,rfl,?_,?_⟩⟩
  · rw [Create.queue,field]
    omega
  · rw [Create.entries,field,entries]
    rfl
  · rw [Create.completionQueue,other]
    omega

structure Registered (host : Host) (array n : Nat) (issued : List Create) : Prop where
  accepted : Accepted host ⟨[],[]⟩ 0 issued
  describes : ∀ c ∈ issued, ∃ i < array, Describes host i c
  completion : ∀ id ∈ (created host issued).completion, id ≤ n
  paired : ∀ id ∈ (created host issued).submission, id ∈ (created host issued).completion

theorem Registered.submission {array n : Nat} {issued : List Create} (registered : Registered host array n issued)
    {id : Nat} (mem : id ∈ (created host issued).submission) : id ≤ n :=
  registered.completion id (registered.paired id mem)

theorem Registered.later {array n k : Nat} {issued : List Create} (registered : Registered host array n issued) (le : n ≤ k) :
    Registered host array k issued :=
  ⟨registered.accepted,registered.describes,fun id mem => (registered.completion id mem).trans le,registered.paired⟩

theorem createdAppend (issued : List Create) (c : Create) :
    created host (issued ++ [c]) = (created host issued).after (host.status issued.length) c := by
  rw [created,afterAppend,Nat.zero_add]
  rfl

theorem afterCompletion {q : Queues} {status : Nat} {c : Create} {id : Nat} (mem : id ∈ (q.after status c).completion) :
    id ∈ q.completion ∨ id = c.queue := by
  unfold Queues.after at mem
  split at mem
  · exact .inl mem
  · split at mem
    · exact (List.mem_cons.mp mem).symm
    · exact .inl mem

theorem afterSubmission {q : Queues} {status : Nat} {c : Create} {id : Nat} (mem : id ∈ (q.after status c).submission) :
    id ∈ q.submission ∨ id = c.queue ∧ c.opcode ≠ 0x5 := by
  unfold Queues.after at mem
  split at mem
  · exact .inl mem
  · split at mem
    case isTrue => exact .inl mem
    case isFalse other => exact (List.mem_cons.mp mem).symm.imp_right fun same => ⟨same,other⟩

theorem afterKeeps (q : Queues) (status : Nat) (c : Create) : (∀ id ∈ q.completion, id ∈ (q.after status c).completion) ∧
    ∀ id ∈ q.submission, id ∈ (q.after status c).submission := by
  unfold Queues.after
  split
  · exact ⟨fun _ mem => mem,fun _ mem => mem⟩
  · split
    · exact ⟨fun _ mem => List.mem_cons_of_mem _ mem,fun _ mem => mem⟩
    · exact ⟨fun _ mem => mem,fun _ mem => List.mem_cons_of_mem _ mem⟩

theorem commandRegistered {array i : Nat} {issued : List Create} (registered : Registered host array (i + 1) issued)
    (inside : i < array) {c : Create} (describes : Describes host i c)
    (allows : (created host issued).Allows c) : Registered host array (i + 1) (issued ++ [c]) := by
  refine ⟨(acceptedAppend c).mpr ⟨registered.accepted,allows⟩,?_,?_,?_⟩
  · intro d mem
    obtain old | new := List.mem_append.mp mem
    · exact registered.describes d old
    · rw [List.mem_singleton.mp new]
      exact ⟨i,inside,describes⟩
  · intro id mem
    rw [createdAppend] at mem
    obtain old | rfl := afterCompletion mem
    · exact registered.completion id old
    · exact describes.1.le
  · intro id mem
    rw [createdAppend] at mem ⊢
    refine (afterKeeps _ _ c).1 id ?_
    obtain old | ⟨rfl,other⟩ := afterSubmission mem
    · exact registered.paired id old
    · obtain ⟨number,_⟩ | ⟨_,_,there⟩ := allows.2
      · exact absurd number other
      · obtain ⟨number,_⟩ | ⟨_,_,_,own⟩ := describes.2
        · exact absurd number other
        · rwa [describes.1,← own]

structure Grows (host : Host) (before after : List Create) : Prop where
  completion : ∀ id ∈ (created host before).completion, id ∈ (created host after).completion
  submission : ∀ id ∈ (created host before).submission, id ∈ (created host after).submission

theorem growsRefl (issued : List Create) : Grows host issued issued := ⟨fun _ mem => mem,fun _ mem => mem⟩

theorem Grows.trans {first second third : List Create} (one : Grows host first second) (two : Grows host second third) :
    Grows host first third :=
  ⟨fun id mem => two.completion id (one.completion id mem),fun id mem => two.submission id (one.submission id mem)⟩

theorem growsAppend (issued : List Create) (c : Create) : Grows host issued (issued ++ [c]) := by
  have kept := afterKeeps (created host issued) (host.status issued.length) c
  rw [← createdAppend] at kept
  exact ⟨kept.1,kept.2⟩

def Serves (host : Host) (issued : List Create) (low high : Nat) : Prop := (∀ k, host.status k = 0) →
  ∀ i, low ≤ i → i < high → i + 1 ∈ (created host issued).completion ∧ i + 1 ∈ (created host issued).submission

theorem servesNone (issued : List Create) (n : Nat) : Serves host issued n n :=
  fun _ _ low high => absurd high (Nat.not_lt_of_le low)

theorem Serves.later {before after : List Create} {low high : Nat} (serves : Serves host before low high)
    (grows : Grows host before after) : Serves host after low high := fun succeed i above below =>
  ⟨grows.completion _ (serves succeed i above below).1,grows.submission _ (serves succeed i above below).2⟩

theorem servesAppend {issued : List Create} {low mid high : Nat} (one : Serves host issued low mid)
    (two : Serves host issued mid high) : Serves host issued low high := by
  intro succeed i above below
  by_cases early : i < mid
  · exact one succeed i above early
  · exact two succeed i (Nat.le_of_not_lt early) below

theorem pairCommands {array i : Nat} {issued : List Create} (registered : Registered host array i issued)
    (inside : i < array) {c d : Create} (cq : Describes host i c) (first : c.opcode = 0x5) (sq : Describes host i d)
    (second : d.opcode = 0x1) : Registered host array (i + 1) (issued ++ [c]) ∧
    (host.status issued.length = 0 → Registered host array (i + 1) (issued ++ [c] ++ [d]) ∧
      Serves host (issued ++ [c] ++ [d]) i (i + 1)) := by
  have fresh : (created host issued).Allows c := by
    refine ⟨by rw [cq.1]; omega,.inl ⟨first,fun mem => ?_⟩⟩
    have := registered.completion _ mem
    rw [cq.1] at this
    omega
  have one := commandRegistered (registered.later (Nat.le_succ i)) inside cq fresh
  refine ⟨one,fun taken => ?_⟩
  have queue : created host (issued ++ [c]) =
      ⟨c.queue::(created host issued).completion,(created host issued).submission⟩ := by
    rw [createdAppend,Queues.after,if_neg (not_not.mpr taken),if_pos first]
  have there : i + 1 ∈ (created host (issued ++ [c])).completion := by
    rw [queue,← cq.1]
    exact List.mem_cons_self
  have allowed : (created host (issued ++ [c])).Allows d := by
    refine ⟨by rw [sq.1]; omega,.inr ⟨second,fun mem => ?_,?_⟩⟩
    · rw [queue] at mem
      have := registered.submission mem
      rw [sq.1] at this
      omega
    · obtain ⟨number,_⟩ | ⟨_,_,_,on⟩ := sq.2
      · rw [second] at number
        cases number
      · rwa [on]
  refine ⟨commandRegistered one inside sq allowed,fun succeed j above below => ?_⟩
  obtain rfl : j = i := by omega
  refine ⟨(growsAppend _ d).completion _ there,?_⟩
  have number : d.opcode ≠ 0x5 := by rw [second]; decide
  rw [createdAppend,Queues.after,if_neg (not_not.mpr (succeed _)),if_neg number,← sq.1]
  exact List.mem_cons_self

theorem pairRegistered {array i : Nat} {issued : List Create} (registered : Registered host array i issued)
    (inside : i < array) (few : array < 2^16) (nvmSet irq : Nat) {issued' : List Create}
    (run : (nvmeRegisterIoQpair host i (createQpair driverSize (i + 1)) nvmSet irq issued).2 = issued') :
    Registered host array (i + 1) issued' ∧ Grows host issued issued' ∧ Serves host issued' i (i + 1) := by
  have low : i + 1 < 2^16 := by omega
  obtain ⟨one,taken⟩ := pairCommands registered inside (describesCq low nvmSet irq) rfl
    (describesSq low (createCq host i (createQpair driverSize (i + 1)) nvmSet irq)) rfl
  unfold nvmeRegisterIoQpair at run
  dsimp only at run
  split at run
  case isTrue refused =>
    cases run
    exact ⟨one,growsAppend _ _,fun succeed => absurd (succeed _) refused⟩
  case isFalse carried =>
    obtain ⟨both,serves⟩ := taken (not_not.mp carried)
    split at run
    · cases run
      exact ⟨both,(growsAppend _ _).trans (growsAppend _ _),serves⟩
    · cases run
      exact ⟨both,(growsAppend _ _).trans (growsAppend _ _),serves⟩

theorem rangeRegistered {array : Nat} (few : array < 2^16) (nvmSet : Nat) (n : Nat) {b : Nat} {issued issued' : List Create}
    (registered : Registered host array b issued)
    (run : registerQpairs host ((List.range array).map fun i => createQpair driverSize (i + 1)) nvmSet b n issued =
      .ret issued') :
    Registered host array (b + n) issued' ∧ Grows host issued issued' ∧ Serves host issued' b (b + n) := by
  induction n generalizing b issued with
  | zero =>
    cases run
    exact ⟨registered,growsRefl _,servesNone _ _⟩
  | succ n ih =>
    rw [registerQpairs] at run
    split at run
    case isFalse => cases run
    case isTrue bounds =>
      have inside : b < array := by simpa using bounds.2
      have entry : ((List.range array).map fun i => createQpair driverSize (i + 1))[(b : Int).toNat]? =
          some (createQpair driverSize (b + 1)) := by
        rw [Int.toNat_natCast,List.getElem?_map,List.getElem?_range inside]
        rfl
      rw [entry,Int.toNat_natCast] at run
      obtain ⟨one,grows,serves⟩ := pairRegistered registered inside few nvmSet 0 rfl
      obtain ⟨rest,more,others⟩ := ih one (by rw [Nat.cast_succ]; exact run)
      rw [Nat.add_right_comm] at rest others
      exact ⟨rest,grows.trans more,servesAppend (serves.later more) others⟩

def Served (host : Host) (issued : List Create) (s : NamespaceState) : Prop := (∀ k, host.status k = 0) →
  ∀ i : Nat, Owns s i → i + 1 ∈ (created host issued).completion ∧ i + 1 ∈ (created host issued).submission

theorem Served.later {before after : List Create} {s : NamespaceState} (served : Served host before s)
    (grows : Grows host before after) : Served host after s := fun succeed i own =>
  ⟨grows.completion _ (served succeed i own).1,grows.submission _ (served succeed i own).2⟩

theorem namespaceRegistered {array processors : Nat} (few : array < 2^16) (arg : Found) {st st' : Qpairs}
    (qs : st.qs = (List.range array).map fun i => createQpair driverSize (i + 1))
    (small : st.init + min processors st.granted < 2^31) {one : Option NamespaceState} {issued issued' : List Create}
    (registered : Registered host array st.init issued)
    (run : initNvmeNamespace host processors arg st issued = .ret (one,st',issued')) :
    (st'.qs = st.qs ∧ st'.granted = st.granted ∧ st'.init ≤ st.init + min processors st.granted) ∧
      Registered host array st'.init issued' ∧ Grows host issued issued' ∧ ∀ s ∈ one, Served host issued' s := by
  have next : add64 st.init (min processors st.granted) = st.init + min processors st.granted := add64Eq (by omega)
  obtain ⟨nsid,start⟩ := arg
  cases start with
  | noMemory =>
    cases run
    exact ⟨⟨rfl,rfl,Nat.le_add_right _ _⟩,registered,growsRefl _,nofun⟩
  | noInfo =>
    cases run
    exact ⟨⟨rfl,rfl,next.le⟩,registered.later (next ▸ Nat.le_add_right _ _),growsRefl _,nofun⟩
  | ready lbaSize =>
    have base := intIff.mpr (show st.init < 2^31 by omega)
    simp only [initNvmeNamespace,base] at run
    obtain ⟨all,loop,made⟩ := Outcome.bindRet run
    cases made
    rw [qs] at loop
    obtain ⟨range,grows,serves⟩ := rangeRegistered few (host.nvmSet nsid) _ registered loop
    refine ⟨⟨rfl,rfl,next.le⟩,next ▸ range,grows,fun s mem succeed i own => ?_⟩
    cases mem
    have lower : (st.init : Int) ≤ i := own.1
    have upper : (i : Int) < st.init + (min processors st.granted : Nat) := own.2
    exact serves succeed i (by omega) (by omega)

theorem namespacesRegistered {array processors : Nat} (few : array < 2^16) (args : List Found) {st st' : Qpairs}
    (qs : st.qs = (List.range array).map fun i => createQpair driverSize (i + 1))
    (small : st.init + args.length * min processors st.granted < 2^31) {states : List NamespaceState}
    {issued issued' : List Create} (registered : Registered host array st.init issued)
    (run : initNamespaces host processors args st issued = .ret (states,st',issued')) :
    st'.qs = st.qs ∧ Registered host array st'.init issued' ∧ Grows host issued issued' ∧
      ∀ s ∈ states, Served host issued' s := by
  induction args generalizing st states issued with
  | nil =>
    cases run
    exact ⟨rfl,registered,growsRefl _,nofun⟩
  | cons arg args ih =>
    rw [List.length_cons,Nat.succ_mul] at small
    rw [initNamespaces] at run
    obtain ⟨⟨one,middle,log⟩,first,run⟩ := Outcome.bindRet run
    obtain ⟨⟨rest,last,log'⟩,later,run⟩ := Outcome.bindRet run
    cases run
    obtain ⟨⟨same,granted,upper⟩,here,grows,served⟩ := namespaceRegistered few arg qs (by omega) registered first
    obtain ⟨array,all,more,others⟩ := ih (same.trans qs) (by rw [granted]; omega) here later
    refine ⟨array.trans same,all,grows.trans more,fun s mem => ?_⟩
    obtain own | rest := List.mem_append.mp mem
    · exact (served s (Option.mem_toList.mp own)).later more
    · exact others s rest

theorem forgetBind {α β γ δ : Type} {x : Outcome α} {y : Outcome β} {f : α → β} {g : α → Outcome γ} {k : β → Outcome δ}
    {h : γ → δ} (same : x.map f = y) (rest : ∀ a, (g a).map h = k (f a)) : (x >>= g).map h = y >>= k := by
  subst same
  cases x with
  | ret a => exact rest a
  | fault _ => rfl
  | running => rfl

theorem registerForget (qs : List Qpair) (nvmSet : Nat) (base : Int) (n : Nat) (issued : List Create) :
    (registerQpairs host qs nvmSet base n issued).map (fun _ => ()) = registerRange qs base n := by
  induction n generalizing base issued with
  | zero => rfl
  | succ n ih =>
    rw [registerQpairs,registerRange]
    split
    case isTrue bounds =>
      rw [List.getElem?_eq_getElem (show base.toNat < qs.length by omega)]
      exact ih _ _
    case isFalse => rfl

theorem namespaceForget (processors : Nat) (arg : Found) (st : Qpairs) (issued : List Create) :
    (initNvmeNamespace host processors arg st issued).map (fun r => (r.1,r.2.1)) =
      NvmeInit.initNvmeNamespace processors arg st := by
  obtain ⟨nsid,start⟩ := arg
  cases start with
  | noMemory => rfl
  | noInfo => rfl
  | ready lbaSize => exact forgetBind (registerForget _ _ _ _ _) fun _ => rfl

theorem namespacesForget (processors : Nat) (args : List Found) (st : Qpairs) (issued : List Create) :
    (initNamespaces host processors args st issued).map (fun r => (r.1,r.2.1)) =
      NvmeInit.initNamespaces processors args st := by
  induction args generalizing st issued with
  | nil => rfl
  | cons arg args ih =>
    exact forgetBind (namespaceForget processors arg st issued) fun _ => forgetBind (ih _ _) fun _ => rfl

theorem initForget (host : Host) (m : Masked) (dw0 : Nat → BitVec 32) (enough : Bool) (processors : Nat)
    (namespaces : List Found) :
    (initNvme host m dw0 enough processors namespaces).map (fun r => (r.1,r.2.1,r.2.2.1)) =
      NvmeInit.initNvme m dw0 enough processors namespaces := by
  unfold initNvme NvmeInit.initNvme
  dsimp only
  split
  · rfl
  cases enough with
  | false => rfl
  | true => exact forgetBind (namespacesForget _ _ _ _) fun _ => rfl

theorem registeredNone (array : Nat) : Registered host array 0 [] := ⟨trivial,nofun,nofun,nofun⟩

theorem initRegistered {m : Masked} {dw0 : Nat → BitVec 32} {enough : Bool} {processors : Nat} {namespaces : List Found}
    (few : namespaces.length * processors < 2^31) {r : Int} {states : List NamespaceState} {st : Qpairs}
    {issued : List Create} (run : initNvme host m dw0 enough processors namespaces = .ret (r,states,st,issued)) :
    (∃ n, Registered host st.qs.length n issued) ∧ ∀ s ∈ states, Served host issued s := by
  unfold initNvme at run
  dsimp only at run
  split at run
  · cases run
    exact ⟨⟨0,registeredNone _⟩,nofun⟩
  cases enough with
  | false =>
    cases run
    exact ⟨⟨0,registeredNone _⟩,nofun⟩
  | true =>
    obtain ⟨⟨found,last,log⟩,inits,made⟩ := Outcome.bindRet run
    cases made
    have width : min processors (nvmeRequestIoQueues m dw0 (namespaces.length % 2^16 * processors % 2^16)) ≤ processors :=
      Nat.min_le_left _ _
    have bound := (Nat.mul_le_mul_left namespaces.length width).trans_lt few
    have size : min (namespaces.length % 2^16 * processors % 2^16)
        (nvmeRequestIoQueues m dw0 (namespaces.length % 2^16 * processors % 2^16)) < 2^16 :=
      (Nat.min_le_left _ _).trans_lt (Nat.mod_lt _ (Nat.two_pow_pos 16))
    obtain ⟨array,all,_,served⟩ := namespacesRegistered size namespaces rfl (by rw [Nat.zero_add]; exact bound)
      (registeredNone _) inits
    refine ⟨⟨last.init,?_⟩,served⟩
    rw [array,List.length_map,List.length_range]
    exact all

/-- Whichever namespaces fail and whichever commands are refused, the controller is only asked
for queues that it can create. The array indices that the namespaces own have theirs when it
refuses none. The start ends unless there are namespaces that the array has no pairs for. -/
theorem queuesRegistered (host : Host) (m : Masked) (dw0 : Nat → BitVec 32) (enough : Bool) (processors : Nat)
    (namespaces : List Found) (few : namespaces.length * processors < 2^31) :
    let requested := namespaces.length % 2^16 * processors % 2^16
    let granted := nvmeRequestIoQueues m dw0 requested
    (enough = true → min requested granted < reach namespaces * min processors granted →
      initNvme host m dw0 enough processors namespaces = .fault .tableIndex) ∧
    (enough = false ∨ reach namespaces * min processors granted ≤ min requested granted → ∃ r states st issued,
      initNvme host m dw0 enough processors namespaces = .ret (r,states,st,issued) ∧
      Accepted host ⟨[],[]⟩ 0 issued ∧ (∀ c ∈ issued, ∃ i < st.qs.length, Describes host i c) ∧
      (∀ id ∈ (created host issued).submission, id ∈ (created host issued).completion) ∧
      ∀ s ∈ states, Served host issued s) := by
  intro requested granted
  obtain ⟨ends,faults⟩ := initEnds m dw0 enough few
  rw [← initForget host] at ends faults
  refine ⟨fun allocated beyond => Outcome.mapFault (faults allocated beyond),fun fits => ?_⟩
  obtain ⟨_,run⟩ := ends fits
  obtain ⟨⟨r,states,st,issued⟩,run,_⟩ := Outcome.bindRet run
  obtain ⟨⟨_,all⟩,served⟩ := initRegistered few run
  exact ⟨r,states,st,issued,run,all.accepted,all.describes,all.paired,served⟩

def refusing : Host := ⟨fun page => page,fun i => (i + 1) * 0x2000,fun _ => 0,fun k => if k = 2 then 1 else 0⟩

theorem queuesRegisteredRefused : ∃ r states st issued,
    initNvme refusing .standard (fun _ => 0x00030003) true 2 [⟨1,.ready 512⟩,⟨2,.ready 512⟩] = .ret (r,states,st,issued) ∧
      Accepted refusing ⟨[],[]⟩ 0 issued ∧ (created refusing issued).completion = [4,3,1] := by
  obtain ⟨r,states,st,issued,run,accepted,_⟩ := (queuesRegistered refusing .standard (fun _ => 0x00030003) true 2
    [⟨1,.ready 512⟩,⟨2,.ready 512⟩] (by decide)).2 (.inr (by decide))
  refine ⟨r,states,st,issued,run,accepted,?_⟩
  cases run
  decide

theorem partitionedEnough {m : Masked} {dw0 : Nat → BitVec 32} {processors : Nat} (namespaces : List Found)
    (small : namespaces.length * processors < 2^16)
    (granted : namespaces.length * processors ≤ nvmeRequestIoQueues m dw0 (namespaces.length * processors)) :
    Partitioned processors (NvmeInit.initNvme m dw0 true processors namespaces) := by
  simp only [NvmeInit.initNvme,Nat.mod_mul_mod,Nat.mod_eq_of_lt small]
  by_cases none : nvmeRequestIoQueues m dw0 (namespaces.length * processors) = 0
  · rw [if_pos none]
    exact dividedNone _
  · rw [if_neg none]
    refine enoughDivided namespaces granted ?_ small
    rw [List.length_map,List.length_range,Nat.min_eq_left granted]

theorem initLeft {m : Masked} {dw0 : Nat → BitVec 32} {processors : Nat} {namespaces : List Found}
    (small : namespaces.length * processors < 2^16)
    (some : 0 < nvmeRequestIoQueues m dw0 (namespaces.length * processors)) {r : Int} {states : List NamespaceState}
    {st : Qpairs} (run : NvmeInit.initNvme m dw0 true processors namespaces = .ret (r,states,st)) :
    ∀ arg ∈ namespaces, ∀ lbaSize, arg.start = .ready lbaSize → ∃ s ∈ states, s.nsid = arg.nsid ∧ s.lbaSize = lbaSize := by
  simp only [NvmeInit.initNvme,Nat.mod_mul_mod,Nat.mod_eq_of_lt small,if_neg some.ne'] at run
  obtain ⟨⟨_,_⟩,inits,made⟩ := Outcome.bindRet run
  cases made
  exact readyLeft inits

/-- With a pair granted for every namespace and processor and no command refused, each namespace
in place is left, and the queue that a processor uses in a namespace is one that was created. -/
theorem processorsServed (host : Host) (m : Masked) (dw0 : Nat → BitVec 32) (processors : Nat) (namespaces : List Found)
    (small : namespaces.length * processors < 2^16)
    (granted : namespaces.length * processors ≤ nvmeRequestIoQueues m dw0 (namespaces.length * processors))
    (succeed : ∀ k, host.status k = 0) : ∃ r states st issued,
    initNvme host m dw0 true processors namespaces = .ret (r,states,st,issued) ∧
      (0 < processors → ∀ arg ∈ namespaces, ∀ lbaSize, arg.start = .ready lbaSize →
        ∃ s ∈ states, s.nsid = arg.nsid ∧ s.lbaSize = lbaSize) ∧
      ∀ s ∈ states, ∀ processor < processors, ∃ i : Nat, qpairIndex processor s = i ∧
        i + 1 ∈ (created host issued).completion ∧ i + 1 ∈ (created host issued).submission := by
  have forget := initForget host m dw0 true processors namespaces
  have divided := partitionedEnough namespaces small granted
  rw [← forget] at divided
  cases run : initNvme host m dw0 true processors namespaces with
  | fault _ => rw [run] at divided; exact divided.elim
  | running => rw [run] at divided; exact divided.elim
  | ret result =>
    obtain ⟨r,states,st,issued⟩ := result
    rw [run] at divided
    refine ⟨r,states,st,issued,rfl,fun some arg mem lbaSize started => ?_,fun s mem processor low => ?_⟩
    · have all : processors ≤ namespaces.length * processors := Nat.le_mul_of_pos_left _ (List.length_pos_of_mem mem)
      have alone := initForget host m dw0 true processors namespaces
      rw [run] at alone
      exact initLeft small (by omega) alone.symm arg mem lbaSize started
    · have own := divided.own s mem processor low
      have inside := divided.inside s mem _ own
      obtain ⟨i,index⟩ := Int.eq_ofNat_of_zero_le inside.1
      have few : namespaces.length * processors < 2^31 := small.trans (by decide)
      exact ⟨i,index,(initRegistered few run).2 s mem succeed i (index ▸ own)⟩

def serving : Host := ⟨id,fun i => (i + 1) * 0x2000,fun _ => 0,fun _ => 0⟩

theorem processorsServedTwo : ∃ r states st issued,
    initNvme serving .standard (fun _ => 0x00030003) true 2 [⟨1,.ready 512⟩,⟨2,.ready 512⟩] = .ret (r,states,st,issued) ∧
      (∃ s ∈ states, s.nsid = 2) ∧ ∀ s ∈ states, ∀ processor < 2, ∃ i : Nat, qpairIndex processor s = i ∧
        i + 1 ∈ (created serving issued).completion ∧ i + 1 ∈ (created serving issued).submission := by
  obtain ⟨r,states,st,issued,run,left,served⟩ := processorsServed serving .standard (fun _ => 0x00030003) 2
    [⟨1,.ready 512⟩,⟨2,.ready 512⟩] (by decide) (by decide) fun _ => rfl
  obtain ⟨s,mem,nsid,_⟩ := left (by decide) ⟨2,.ready 512⟩ (by simp) 512 rfl
  exact ⟨r,states,st,issued,run,⟨s,mem,nsid⟩,served⟩

end
end Kdrivers.NvmeRegister
