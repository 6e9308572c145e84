import Kdrivers.BitFields
import Kdrivers.NvmeNamespace
import Kdrivers.NvmeQueue

/-! The queue pairs of a controller and their division among its namespaces (init_nvme in
nvme.c, init_nvme_namespace in namespace.c). -/
namespace Kdrivers.NvmeInit
open BitFields Bytes NvmeQueue NvmeNamespace

structure Qpairs where
  requested : Nat
  granted : Nat
  init : Nat
  qs : List Qpair

/- What becomes of init_nvme_namespace: no memory for its state, no answer to namespace_get_info,
or neither. -/
inductive Start where
  | noMemory | noInfo
  | ready (lbaSize : Nat)

structure Found where
  nsid : Nat
  start : Start

-- dw0 is the controller's answer to the command's cdw11
def nvmeRequestIoQueues (m : Masked) (dw0 : Nat → BitVec 32) (qcount : Nat) : Nat :=
  let one := (qcount + (2^32 - 1)) % 2^32
  let ret := dw0 (one ||| (one <<< 16) % 2^32)
  (min (m.read ret 0 0xFFFF) (m.read ret 16 0xFFFF) + 1) % 2^16

-- enough tells whether the array, the pages and the rings could be allocated
def nvmeCreateIoQpairs (enough : Bool) (count : Nat) : Option (List Qpair) :=
  if enough then some ((List.range count).map fun i => createQpair driverSize (i + 1)) else none

def registerRange (qs : List Qpair) (base : Int) : Nat → Outcome Unit
  | 0 => .ret ()
  | n+1 => if 0 ≤ base ∧ base < qs.length then registerRange qs (base + 1) n else .fault .tableIndex

-- the casts to int; granted holds 16 bits
def initNvmeNamespace (processors : Nat) (arg : Found) (st : Qpairs) : Outcome (Option NamespaceState × Qpairs) :=
  let base := (BitVec.ofNat 32 st.init).toInt
  let count := min processors st.granted
  let taken : Qpairs := { st with init := add64 st.init count }
  match arg.start with
  | .noMemory => .ret (none,st)
  | .noInfo => .ret (none,taken)
  | .ready lbaSize => do
    let () ← registerRange st.qs base count
    .ret (some ⟨pageSize,lbaSize,arg.nsid,base,count⟩,taken)

def initNamespaces (processors : Nat) : List Found → Qpairs → Outcome (List NamespaceState × Qpairs)
  | [],st => .ret ([],st)
  | arg::args,st => do
    let (one,st) ← initNvmeNamespace processors arg st
    let (rest,st) ← initNamespaces processors args st
    .ret (one.toList ++ rest,st)

def initNvme (m : Masked) (dw0 : Nat → BitVec 32) (enough : Bool) (processors : Nat) (namespaces : List Found) :
    Outcome (Int × List NamespaceState × Qpairs) :=
  let nsCount := namespaces.length % 2^16
  let requested := nsCount * processors % 2^16
  let granted := nvmeRequestIoQueues m dw0 requested
  if granted = 0 then .ret (-6,[],⟨0,0,0,[]⟩)
  else match nvmeCreateIoQpairs enough (min requested granted) with
    | none => .ret (-7,[],⟨0,0,0,[]⟩)
    | some qs => do
      let (states,st) ← initNamespaces processors namespaces ⟨requested,granted,0,qs⟩
      .ret (0,states,st)

def qpairIndex (processor : Nat) (state : NamespaceState) : Int := processor + state.qpairBase

def Owns (state : NamespaceState) (i : Int) : Prop := state.qpairBase ≤ i ∧ i < state.qpairBase + state.qpairCount

structure Divided (processors array : Nat) (states : List NamespaceState) : Prop where
  apart : states.Pairwise fun s t => ∀ i, ¬ (Owns s i ∧ Owns t i)
  inside : ∀ s ∈ states, ∀ i, Owns s i → 0 ≤ i ∧ i < array
  own : ∀ s ∈ states, ∀ processor < processors, Owns s (qpairIndex processor s)

/- How many of the namespaces take a range, up to the last that is ready. -/
def reach : List Found → Nat
  | [] => 0
  | arg::args => match arg.start with
    | .noMemory => reach args
    | .noInfo => if reach args = 0 then 0 else reach args + 1
    | .ready _ => reach args + 1

inductive Spans (width : Nat) : Nat → List NamespaceState → Nat → Prop where
  | nil (start : Nat) : Spans width start [] start
  | lost {start states stop} (tail : Spans width (start + width) states stop) : Spans width start states stop
  | own {start stop : Nat} {s : NamespaceState} {states} (base : s.qpairBase = start) (count : s.qpairCount = width)
      (tail : Spans width (start + width) states stop) : Spans width start (s::states) stop

theorem spansForward {width start stop : Nat} {states : List NamespaceState} (h : Spans width start states stop) :
    start ≤ stop := by
  induction h with
  | nil => exact Nat.le_refl _
  | lost _ ih => omega
  | own _ _ _ ih => omega

theorem spanBounds {width start stop : Nat} {states : List NamespaceState} (h : Spans width start states stop)
    {s : NamespaceState} (mem : s ∈ states) :
    (start : Int) ≤ s.qpairBase ∧ s.qpairBase + width ≤ stop ∧ s.qpairCount = width := by
  induction h with
  | nil => cases mem
  | lost _ ih =>
    have rest := ih mem
    exact ⟨by omega,rest.2⟩
  | own base count tail ih =>
    rcases List.mem_cons.mp mem with rfl | later
    · have forward := spansForward tail
      exact ⟨by omega,by omega,count⟩
    · have rest := ih later
      exact ⟨by omega,rest.2⟩

theorem spansOrdered {width start stop : Nat} {states : List NamespaceState} (h : Spans width start states stop) :
    states.Pairwise fun s t => s.qpairBase + s.qpairCount ≤ t.qpairBase := by
  induction h with
  | nil => exact .nil
  | lost _ ih => exact ih
  | own base count tail ih =>
    refine List.pairwise_cons.mpr ⟨fun t mem => ?_,ih⟩
    have bounds := spanBounds tail mem
    omega

theorem spansDivided {width array start stop : Nat} {states : List NamespaceState} (h : Spans width start states stop)
    (fits : ∀ s ∈ states, width = 0 ∨ s.qpairBase + width ≤ array) : Divided width array states := by
  refine ⟨(spansOrdered h).imp fun ordered i both => ?_,fun s mem i own => ?_,fun s mem processor low => ?_⟩
  · have left := both.1.2
    have right := both.2.1
    omega
  · have bounds := spanBounds h mem
    have within := fits s mem
    have lower := own.1
    have upper := own.2
    omega
  · have bounds := spanBounds h mem
    unfold Owns qpairIndex
    omega

theorem registerInside (qs : List Qpair) (base : Int) (n : Nat) (lower : 0 ≤ base) (upper : base + n ≤ qs.length) :
    registerRange qs base n = .ret () := by
  induction n generalizing base with
  | zero => rfl
  | succ n ih =>
    rw [registerRange,if_pos (by omega)]
    exact ih (base + 1) (by omega) (by omega)

theorem registerOutside (qs : List Qpair) (base : Int) (n : Nat) (lower : 0 ≤ base) (upper : qs.length < base + n)
    (some : 0 < n) : registerRange qs base n = .fault .tableIndex := by
  induction n generalizing base with
  | zero => exact absurd some (Nat.lt_irrefl 0)
  | succ n ih =>
    rw [registerRange]
    split
    · exact ih (base + 1) (by omega) (by omega) (by omega)
    · rfl

theorem reachLe (args : List Found) : reach args ≤ args.length := by
  induction args with
  | nil => exact Nat.le_refl 0
  | cons arg args ih =>
    obtain ⟨nsid,start⟩ := arg
    cases start with
    | noMemory => exact ih.trans (Nat.le_succ _)
    | noInfo =>
      rw [reach,List.length_cons]
      dsimp only
      split <;> omega
    | ready lbaSize => exact Nat.succ_le_succ ih

section
variable {processors : Nat}

theorem restNone {arg : Found} (args : List Found) {st next : Qpairs}
    (first : initNvmeNamespace processors arg st = .ret (none,next)) :
    initNamespaces processors (arg::args) st = initNamespaces processors args next := by
  rw [initNamespaces,first,Outcome.retBind]
  dsimp only
  cases initNamespaces processors args next <;> rfl

theorem restSome {arg : Found} (args : List Found) {st next : Qpairs} {s : NamespaceState}
    (first : initNvmeNamespace processors arg st = .ret (some s,next)) : initNamespaces processors (arg::args) st =
      (initNamespaces processors args next).map fun (states,st) => (s::states,st) := by
  rw [initNamespaces,first,Outcome.retBind]
  dsimp only
  cases initNamespaces processors args next <;> rfl

theorem readyNext {nsid lbaSize : Nat} {st : Qpairs} (small : st.init + min processors st.granted < 2^31)
    (inside : min processors st.granted = 0 ∨ st.init + min processors st.granted ≤ st.qs.length) :
    initNvmeNamespace processors ⟨nsid,.ready lbaSize⟩ st =
      .ret (some ⟨pageSize,lbaSize,nsid,st.init,(min processors st.granted : Nat)⟩,
        { st with init := st.init + min processors st.granted }) := by
  have next : add64 st.init (min processors st.granted) = st.init + min processors st.granted := add64Eq (by omega)
  have base := intIff.mpr (show st.init < 2^31 by omega)
  have all : registerRange st.qs st.init (min processors st.granted) = .ret () := by
    obtain none | within := inside
    · rw [none]
      rfl
    · exact registerInside _ _ _ (Int.natCast_nonneg _) (by omega)
  simp only [initNvmeNamespace,base,all,next,Outcome.retBind]

theorem readyFaults {nsid lbaSize : Nat} {st : Qpairs} (small : st.init + min processors st.granted < 2^31)
    (some : 0 < min processors st.granted) (beyond : st.qs.length < st.init + min processors st.granted) :
    initNvmeNamespace processors ⟨nsid,.ready lbaSize⟩ st = .fault .tableIndex := by
  have base := intIff.mpr (show st.init < 2^31 by omega)
  have past : registerRange st.qs st.init (min processors st.granted) = .fault .tableIndex :=
    registerOutside _ _ _ (Int.natCast_nonneg _) (by omega) some
  simp only [initNvmeNamespace,base,past,Outcome.faultBind]

theorem namespacesReach (args : List Found) (st : Qpairs) (small : st.init + args.length * min processors st.granted < 2^31) :
    (reach args * min processors st.granted = 0 ∨ st.init + reach args * min processors st.granted ≤ st.qs.length →
      ∃ states st', initNamespaces processors args st = .ret (states,st') ∧ st'.qs = st.qs ∧
        Spans (min processors st.granted) st.init states st'.init ∧ (states = [] ↔ reach args = 0) ∧
        ∀ s ∈ states, min processors st.granted = 0 ∨ s.qpairBase + min processors st.granted ≤ st.qs.length) ∧
    (reach args * min processors st.granted ≠ 0 → st.qs.length < st.init + reach args * min processors st.granted →
      initNamespaces processors args st = .fault .tableIndex) := by
  induction args generalizing st with
  | nil => exact ⟨fun _ => ⟨[],st,rfl,rfl,.nil _,by simp [reach],nofun⟩,fun some => by simp [reach] at some⟩
  | cons arg args ih =>
    rw [List.length_cons,Nat.succ_mul] at small
    have next : add64 st.init (min processors st.granted) = st.init + min processors st.granted := add64Eq (by omega)
    have later := ih { st with init := st.init + min processors st.granted } (by change st.init + _ + args.length * min processors st.granted < _; omega)
    dsimp only at later
    obtain ⟨nsid,start⟩ := arg
    cases start with
    | noMemory =>
      rw [restNone args rfl,reach]
      exact ih st (by omega)
    | noInfo =>
      have first : initNvmeNamespace processors ⟨nsid,.noInfo⟩ st =
          .ret (none,{ st with init := st.init + min processors st.granted }) := by
        rw [← next]
        rfl
      rw [restNone args first,reach]
      dsimp only
      by_cases none : reach args = 0
      · rw [if_pos none]
        simp only [none,Nat.zero_mul,true_or,forall_const] at later ⊢
        obtain ⟨⟨states,st',run,same,spans,empty,inside⟩,_⟩ := later
        exact ⟨⟨states,st',run,same,.lost spans,empty,inside⟩,fun some => absurd rfl some⟩
      · rw [if_neg none]
        simp only [Nat.succ_mul,none,iff_false] at later ⊢
        refine ⟨fun inside => ?_,fun some beyond => later.2 ?_ (by omega)⟩
        · obtain ⟨states,st',run,same,spans,full,inside⟩ := later.1 (by omega)
          exact ⟨states,st',run,same,.lost spans,by simp [full],inside⟩
        · intro zero
          obtain absurd_ | zero := Nat.mul_eq_zero.mp zero
          · exact none absurd_
          · rw [zero] at some
            exact some (by simp)
    | ready lbaSize =>
      rw [reach]
      dsimp only
      simp only [Nat.succ_mul,Nat.add_eq_zero_iff,Nat.succ_ne_zero,iff_false] at later ⊢
      by_cases inside : min processors st.granted = 0 ∨ st.init + min processors st.granted ≤ st.qs.length
      · have first : initNvmeNamespace processors ⟨nsid,.ready lbaSize⟩ st = _ := readyNext (by omega) inside
        rw [restSome args first]
        refine ⟨fun fits => ?_,fun some beyond => ?_⟩
        · obtain ⟨states,st',run,same,spans,_,within⟩ := later.1 (by omega)
          rw [run]
          refine ⟨_,_,rfl,same,.own rfl rfl spans,by simp,fun s mem => ?_⟩
          obtain rfl | rest := List.mem_cons.mp mem
          · exact inside.imp_right fun low => Int.ofNat_le.mpr low
          · exact within s rest
        · rw [later.2 (by omega) (by omega)]
          rfl
      · refine ⟨fun fits => absurd inside (by omega),fun some beyond => ?_⟩
        rw [initNamespaces,readyFaults (by omega) (by omega) (by omega),Outcome.faultBind]

theorem readyBases {args : List Found} (ready : ∀ arg ∈ args, ∃ lbaSize, arg.start = .ready lbaSize) {st st' : Qpairs}
    {states : List NamespaceState} (run : initNamespaces processors args st = .ret (states,st')) :
    st'.qs = st.qs ∧ ∀ i < args.length, ∃ s ∈ states,
      s.qpairBase = (BitVec.ofNat 32 ((st.init + i * min processors st.granted) % 2^64)).toInt ∧
      s.qpairCount = (min processors st.granted : Nat) := by
  induction args generalizing st states with
  | nil =>
    cases run
    exact ⟨rfl,fun i low => absurd low (Nat.not_lt_zero i)⟩
  | cons arg args ih =>
    obtain ⟨lbaSize,started⟩ := ready arg List.mem_cons_self
    rw [initNamespaces] at run
    obtain ⟨⟨one,middle⟩,first,run⟩ := Outcome.bindRet run
    obtain ⟨⟨rest,last⟩,later,run⟩ := Outcome.bindRet run
    cases run
    simp only [initNvmeNamespace,started] at first
    obtain ⟨_,_,made⟩ := Outcome.bindRet first
    cases made
    obtain ⟨same,bases⟩ := ih (fun arg mem => ready arg (List.mem_cons_of_mem _ mem)) later
    refine ⟨same,fun i low => ?_⟩
    cases i with
    | zero =>
      refine ⟨_,List.mem_cons_self,?_,rfl⟩
      change (BitVec.ofNat 32 st.init).toInt = _
      have low : BitVec.ofNat 32 ((st.init + 0 * min processors st.granted) % 2^64) = BitVec.ofNat 32 st.init := by
        apply BitVec.eq_of_toNat_eq
        rw [Nat.zero_mul,Nat.add_zero,BitVec.toNat_ofNat,BitVec.toNat_ofNat]
        exact Nat.mod_mod_of_dvd _ (by decide)
      rw [low]
    | succ i =>
      obtain ⟨s,mem,base,width⟩ := bases i (Nat.lt_of_succ_lt_succ low)
      refine ⟨s,List.mem_cons_of_mem _ mem,base.trans ?_,width⟩
      have sum : (add64 st.init (min processors st.granted) + i * min processors st.granted) % 2^64 =
          (st.init + (i + 1) * min processors st.granted) % 2^64 := by
        rw [add64,Nat.mod_add_mod,Nat.succ_mul,Nat.add_assoc,Nat.add_comm (min _ _)]
      rw [sum]

theorem readyLeft {args : List Found} {st st' : Qpairs} {states : List NamespaceState}
    (run : initNamespaces processors args st = .ret (states,st')) : ∀ arg ∈ args, ∀ lbaSize, arg.start = .ready lbaSize →
      ∃ s ∈ states, s.nsid = arg.nsid ∧ s.lbaSize = lbaSize := by
  induction args generalizing st states with
  | nil => exact fun _ mem => (List.not_mem_nil mem).elim
  | cons first args ih =>
    rw [initNamespaces] at run
    obtain ⟨⟨one,middle⟩,begun,run⟩ := Outcome.bindRet run
    obtain ⟨⟨rest,last⟩,later,run⟩ := Outcome.bindRet run
    cases run
    intro arg mem lbaSize started
    obtain rfl | mem := List.mem_cons.mp mem
    · simp only [initNvmeNamespace,started] at begun
      obtain ⟨_,_,made⟩ := Outcome.bindRet begun
      cases made
      exact ⟨_,List.mem_cons_self,rfl,rfl⟩
    · obtain ⟨s,here,same⟩ := ih later arg mem lbaSize started
      exact ⟨s,List.mem_append_right _ here,same⟩

def Partitioned (processors : Nat) : Outcome (Int × List NamespaceState × Qpairs) → Prop
  | .ret (_,states,st) => Divided processors st.qs.length states
  | _ => False

theorem dividedNone (array : Nat) : Divided processors array [] :=
  ⟨.nil,fun _ mem => (List.not_mem_nil mem).elim,fun _ mem => (List.not_mem_nil mem).elim⟩

theorem createLength {count : Nat} {qs : List Qpair} (made : nvmeCreateIoQpairs true count = some qs) :
    qs.length = count := by
  cases made
  rw [List.length_map,List.length_range]

theorem dividedEnough {args : List Found} (ready : ∀ arg ∈ args, ∃ lbaSize, arg.start = .ready lbaSize) {st st' : Qpairs}
    {states : List NamespaceState} (run : initNamespaces processors args st = .ret (states,st')) (first : st.init = 0)
    (small : st.qs.length < 2^31) (divided : Divided processors st.qs.length states) :
    args.length * processors ≤ st.qs.length := by
  by_contra short
  obtain ⟨_,bases⟩ := readyBases ready run
  have some : 0 < processors := Nat.pos_of_ne_zero fun zero => by simp [zero] at short
  have last : st.qs.length / processors < args.length := (Nat.div_lt_iff_lt_mul some).mpr (Nat.lt_of_not_le short)
  obtain ⟨s,mem,base,width⟩ := bases _ last
  have own := divided.own s mem (processors - 1) (by omega)
  have wide : min processors st.granted = processors := by
    have upper := own.2
    unfold qpairIndex at upper
    omega
  have below : st.qs.length / processors * processors ≤ st.qs.length := Nat.div_mul_le_self _ _
  rw [wide,first,Nat.zero_add,Nat.mod_eq_of_lt (by omega),intIff.mpr (by omega)] at base
  have beyond := (divided.inside s mem _ own).2
  have above := Nat.lt_div_mul_add (a := st.qs.length) some
  unfold qpairIndex at beyond
  omega

theorem reachDivided (args : List Found) {requested granted : Nat} {qs : List Qpair}
    (small : args.length * processors < 2^31) : Partitioned processors (do
      let (states,st) ← initNamespaces processors args ⟨requested,granted,0,qs⟩
      .ret (0,states,st)) ↔ reach args = 0 ∨ processors ≤ granted ∧ reach args * processors ≤ qs.length := by
  have width : args.length * min processors granted < 2^31 :=
    (Nat.mul_le_mul_left _ (Nat.min_le_left _ _)).trans_lt small
  obtain ⟨ends,faults⟩ := namespacesReach args ⟨requested,granted,0,qs⟩ (by rw [Nat.zero_add]; exact width)
  simp only [Nat.zero_add] at ends faults
  constructor
  · intro partitioned
    by_cases none : reach args = 0
    · exact .inl none
    refine .inr ?_
    have fits : reach args * min processors granted = 0 ∨ reach args * min processors granted ≤ qs.length := by
      by_contra beyond
      rw [faults (by omega) (by omega)] at partitioned
      exact partitioned
    obtain ⟨states,st,run,_,spans,empty,_⟩ := ends fits
    obtain ⟨s,mem⟩ := List.exists_mem_of_ne_nil states fun nil => none (empty.mp nil)
    rw [run] at partitioned
    have wide : min processors granted = processors := by
      by_contra narrow
      have upper := (partitioned.own s mem (processors - 1) (by omega)).2
      have bounds := spanBounds spans mem
      unfold qpairIndex at upper
      omega
    rw [wide] at fits
    exact ⟨by omega,by omega⟩
  · intro enough
    have fits : reach args * min processors granted = 0 ∨ reach args * min processors granted ≤ qs.length := by
      obtain none | ⟨all,low⟩ := enough
      · exact .inl (by rw [none,Nat.zero_mul])
      · exact .inr (by rwa [Nat.min_eq_left all])
    obtain ⟨states,st,run,same,spans,empty,inside⟩ := ends fits
    rw [run]
    change Divided processors st.qs.length states
    rw [same]
    obtain none | ⟨all,_⟩ := enough
    · rw [empty.mpr none]
      exact dividedNone _
    · rw [Nat.min_eq_left all] at spans inside
      exact spansDivided spans inside

theorem enoughDivided (args : List Found) {requested granted : Nat} {qs : List Qpair}
    (enough : args.length * processors ≤ granted) (length : qs.length = args.length * processors)
    (small : args.length * processors < 2^16) : Partitioned processors (do
      let (states,st) ← initNamespaces processors args ⟨requested,granted,0,qs⟩
      .ret (0,states,st)) := by
  refine (reachDivided args (by omega)).mpr ?_
  have few := reachLe args
  by_cases none : reach args = 0
  · exact .inl none
  · have all : processors ≤ args.length * processors := Nat.le_mul_of_pos_left _ (by omega)
    exact .inr ⟨all.trans enough,length ▸ Nat.mul_le_mul_right _ few⟩

/-- For the namespaces that there are, and those of them that fail, the pairs are divided just if
none are granted or allocated, or there is one for every processor and namespace up to the last
that is ready. -/
theorem givenPartitioned (m : Masked) (dw0 : Nat → BitVec 32) (enough : Bool) {processors : Nat} {namespaces : List Found}
    (small : namespaces.length * processors < 2^31) :
    let requested := namespaces.length % 2^16 * processors % 2^16
    let granted := nvmeRequestIoQueues m dw0 requested
    Partitioned processors (initNvme m dw0 enough processors namespaces) ↔ granted = 0 ∨ enough = false ∨
      reach namespaces = 0 ∨ processors ≤ granted ∧ reach namespaces * processors ≤ min requested granted := by
  intro requested granted
  unfold initNvme
  dsimp only
  by_cases none : granted = 0
  · rw [if_pos none]
    exact iff_of_true (dividedNone _) (.inl none)
  · rw [if_neg none]
    cases enough with
    | false => exact iff_of_true (dividedNone _) (.inr (.inl rfl))
    | true =>
      have length : ((List.range (min requested granted)).map fun i => createQpair driverSize (i + 1)).length =
          min requested granted := by rw [List.length_map,List.length_range]
      have divided := @reachDivided processors namespaces requested granted
        ((List.range (min requested granted)).map fun i => createQpair driverSize (i + 1)) small
      rw [length] at divided
      exact divided.trans (by simp [none])

/-- The queue pairs are divided among the namespaces, whichever of them fail, just if none
are granted or there is one for every namespace and processor, counted in 16 bits. -/
theorem partitionedIff (m : Masked) (dw0 : Nat → BitVec 32) (processors count : Nat) :
    (∀ enough namespaces, namespaces.length = count → Partitioned processors (initNvme m dw0 enough processors namespaces)) ↔
      nvmeRequestIoQueues m dw0 (count * processors % 2^16) = 0 ∨
        count * processors < 2^16 ∧ count * processors ≤ nvmeRequestIoQueues m dw0 (count * processors % 2^16) := by
  have wraps := Nat.mod_lt (count * processors) (Nat.two_pow_pos 16)
  constructor
  · intro all
    by_cases none : nvmeRequestIoQueues m dw0 (count * processors % 2^16) = 0
    · exact .inl none
    refine .inr ?_
    have run := all true ((List.range count).map fun i => ⟨i + 1,.ready 512⟩) (by rw [List.length_map,List.length_range])
    obtain ⟨qs,made⟩ : ∃ qs, nvmeCreateIoQpairs true (min (count * processors % 2^16)
      (nvmeRequestIoQueues m dw0 (count * processors % 2^16))) = some qs := ⟨_,rfl⟩
    have length := createLength made
    simp only [initNvme,List.length_map,List.length_range,Nat.mod_mul_mod,if_neg none,made] at run
    cases done : initNamespaces processors ((List.range count).map fun i => ⟨i + 1,.ready 512⟩)
      ⟨count * processors % 2^16,nvmeRequestIoQueues m dw0 (count * processors % 2^16),0,qs⟩ with
    | ret r =>
      obtain ⟨states,st⟩ := r
      rw [done,Outcome.retBind] at run
      have ready : ∀ arg ∈ (List.range count).map fun i => (⟨i + 1,.ready 512⟩ : Found),
          ∃ lbaSize, arg.start = .ready lbaSize := by
        intro arg mem
        obtain ⟨i,_,rfl⟩ := List.mem_map.mp mem
        exact ⟨512,rfl⟩
      change Divided processors st.qs.length states at run
      rw [(readyBases ready done).1] at run
      have enough : _ ≤ qs.length := dividedEnough ready done rfl (show qs.length < 2^31 by omega) run
      rw [List.length_map,List.length_range] at enough
      omega
    | fault f =>
      rw [done] at run
      exact run.elim
    | running =>
      rw [done] at run
      exact run.elim
  · rintro condition enough namespaces rfl
    simp only [initNvme,Nat.mod_mul_mod]
    obtain none | ⟨small,granted⟩ := condition
    · rw [if_pos none]
      exact dividedNone _
    by_cases none : nvmeRequestIoQueues m dw0 (namespaces.length * processors % 2^16) = 0
    · rw [if_pos none]
      exact dividedNone _
    rw [if_neg none]
    cases enough with
    | false => exact dividedNone _
    | true =>
      obtain ⟨qs,made⟩ : ∃ qs, nvmeCreateIoQpairs true (min (namespaces.length * processors % 2^16)
        (nvmeRequestIoQueues m dw0 (namespaces.length * processors % 2^16))) = some qs := ⟨_,rfl⟩
      have length := createLength made
      rw [Nat.mod_eq_of_lt small] at granted made none ⊢
      rw [Nat.mod_eq_of_lt small,Nat.min_eq_left granted] at length
      rw [made]
      exact enoughDivided namespaces granted length small

theorem initEnds (m : Masked) (dw0 : Nat → BitVec 32) (enough : Bool) {processors : Nat} {namespaces : List Found}
    (small : namespaces.length * processors < 2^31) :
    let requested := namespaces.length % 2^16 * processors % 2^16
    let granted := nvmeRequestIoQueues m dw0 requested
    (enough = false ∨ reach namespaces * min processors granted ≤ min requested granted →
      ∃ r, initNvme m dw0 enough processors namespaces = .ret r) ∧
    (enough = true → min requested granted < reach namespaces * min processors granted →
      initNvme m dw0 enough processors namespaces = .fault .tableIndex) := by
  intro requested granted
  have width : namespaces.length * min processors granted < 2^31 :=
    (Nat.mul_le_mul_left _ (Nat.min_le_left _ _)).trans_lt small
  unfold initNvme
  dsimp only
  by_cases none : granted = 0
  · rw [if_pos none]
    exact ⟨fun _ => ⟨_,rfl⟩,fun _ beyond => by simp [none] at beyond⟩
  · rw [if_neg none]
    cases enough with
    | false => exact ⟨fun _ => ⟨_,rfl⟩,nofun⟩
    | true =>
      obtain ⟨ends,faults⟩ := namespacesReach namespaces
        ⟨requested,granted,0,(List.range (min requested granted)).map fun i => createQpair driverSize (i + 1)⟩
        (by rw [Nat.zero_add]; exact width)
      simp only [Nat.zero_add,List.length_map,List.length_range] at ends faults
      refine ⟨fun fits => ?_,fun _ beyond => ?_⟩
      · obtain ⟨states,st,run,_⟩ := ends (.inr (fits.resolve_left nofun))
        exact ⟨(0,states,st),by change (initNamespaces _ _ _ >>= _) = _; rw [run]; rfl⟩
      · change (initNamespaces _ _ _ >>= _) = _
        rw [faults (by omega) beyond]
        rfl

theorem secondNamespaceOutside : ¬ ∀ (m : Masked) (dw0 : Nat → BitVec 32) (enough : Bool) (processors : Nat)
    (namespaces : List Found), Partitioned processors (initNvme m dw0 enough processors namespaces) := by
  intro all
  have faults : initNvme .standard (fun _ => 0x00030003) true 4 [⟨1,.ready 512⟩,⟨2,.ready 512⟩] = .fault .tableIndex :=
    rfl
  have run := all .standard (fun _ => 0x00030003) true 4 [⟨1,.ready 512⟩,⟨2,.ready 512⟩]
  rw [faults] at run
  exact run

end

end Kdrivers.NvmeInit
