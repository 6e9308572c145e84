import Mathlib.Data.List.Range
import Kdrivers.NvmeInit

/-! The set-up of I/O queue pairs with its allocations one by one, and what is undone when
one of them fails (nvme_create_io_qpairs and its caller in nvme.c). -/
namespace Kdrivers.NvmeCleanup
open NvmeQueue

/- What the allocators answer: for the array, and for each queue the pages and the two rings.
unset is the base that the content of an entry leads to before the entry is written. -/
structure Env where
  array : Bool
  pages : Nat → Option Nat
  submission : Nat → Bool
  completion : Nat → Bool
  unset : Nat → Nat

structure Entry where
  qpair : Qpair
  base : Nat
  deriving DecidableEq, Repr

/- The page blocks obtained and released, the entries written and read, and how often the
array and the driver state were freed. -/
structure Trace where
  obtained : List Nat
  released : List Nat
  written : List Nat
  reads : List Nat
  arrayFreed : Nat
  stateFreed : Nat
  deriving DecidableEq, Repr

def Trace.start : Trace := ⟨[],[],[],[],0,0⟩

section
variable (env : Env)

def setUp : Nat → List Entry → Trace → List Entry × Trace
  | 0,ioQpairs,t => (ioQpairs,t)
  | n+1,ioQpairs,t =>
    let i := ioQpairs.length
    match env.pages i with
    | none => (ioQpairs,t)
    | some base =>
      let t := { t with obtained := t.obtained ++ [base] }
      if env.submission i then
        if env.completion i then
          setUp n (ioQpairs ++ [⟨createQpair driverSize (i + 1),base⟩]) { t with written := t.written ++ [i] }
        else (ioQpairs,t)
      else (ioQpairs,t)

def freeBase (ioQpairs : List Entry) (i : Nat) (t : Trace) : Trace :=
  { t with
    reads := t.reads ++ [i]
    released := t.released ++ [(ioQpairs[i]?.map Entry.base).getD (env.unset i)] }

def cleanUp (ioQpairs : List Entry) : Nat → Trace → Trace
  | 0,t => freeBase env ioQpairs 0 t
  | i+1,t => cleanUp ioQpairs i (freeBase env ioQpairs (i + 1) t)

def nvmeCreateIoQpairs (count : Nat) (t : Trace) : Int × List Entry × Trace :=
  if env.array then
    let (ioQpairs,t) := setUp env count [] t
    if ioQpairs.length ≠ count then
      -- from the queue that failed on
      let t := cleanUp env ioQpairs ioQpairs.length t
      (-1,[],{ t with arrayFreed := t.arrayFreed + 1 })
    else (0,ioQpairs,t)
  else (-1,[],{ t with stateFreed := t.stateFreed + 1 })

def initQpairs (count : Nat) (t : Trace) : Int × List Entry × Trace :=
  match nvmeCreateIoQpairs env count t with
  | (0,ioQpairs,t) => (0,ioQpairs,t)
  | (_,_,t) => (-7,[],{ t with stateFreed := t.stateFreed + 1 })

def ready (i : Nat) : Bool := (env.pages i).isSome && env.submission i && env.completion i
def enough (count : Nat) : Bool := env.array && (List.range count).all (ready env)

structure CleanedUp (count : Nat) : Prop where
  result : (nvmeCreateIoQpairs env count .start).1 = -1
  reads : ∀ i ∈ (nvmeCreateIoQpairs env count .start).2.2.reads, i ∈ (nvmeCreateIoQpairs env count .start).2.2.written
  released : (nvmeCreateIoQpairs env count .start).2.2.released.Perm (nvmeCreateIoQpairs env count .start).2.2.obtained
  owned : (nvmeCreateIoQpairs env count .start).2.2.stateFreed = 0
  once : (initQpairs env count .start).2.2.stateFreed = 1

end

section
variable {env : Env}

theorem setUpStep (env : Env) (n : Nat) (ioQpairs : List Entry) (t : Trace) :
    (ready env ioQpairs.length = true ∧ ∃ base, setUp env (n + 1) ioQpairs t =
      setUp env n (ioQpairs ++ [⟨createQpair driverSize (ioQpairs.length + 1),base⟩])
        { t with obtained := t.obtained ++ [base], written := t.written ++ [ioQpairs.length] }) ∨
    (ready env ioQpairs.length = false ∧ ∃ obtained, setUp env (n + 1) ioQpairs t =
      (ioQpairs,{ t with obtained := obtained })) := by
  unfold ready
  rw [setUp]
  cases env.pages ioQpairs.length with
  | none => exact .inr ⟨rfl,t.obtained,rfl⟩
  | some base =>
    cases env.submission ioQpairs.length with
    | false => exact .inr ⟨rfl,t.obtained ++ [base],rfl⟩
    | true =>
      cases env.completion ioQpairs.length with
      | false => exact .inr ⟨rfl,t.obtained ++ [base],rfl⟩
      | true => exact .inl ⟨rfl,base,rfl⟩

theorem setUpAll (n : Nat) (ioQpairs : List Entry) (t : Trace)
    (good : ∀ i, ioQpairs.length ≤ i → i < ioQpairs.length + n → ready env i = true) :
    (setUp env n ioQpairs t).1.map Entry.qpair = ioQpairs.map Entry.qpair ++
      (List.range' ioQpairs.length n).map fun i => createQpair driverSize (i + 1) := by
  induction n generalizing ioQpairs t with
  | zero => simp [setUp]
  | succ n ih =>
    have here := good ioQpairs.length (Nat.le_refl _) (by omega)
    rcases setUpStep env n ioQpairs t with ⟨_,base,next⟩ | ⟨bad,_⟩
    · rw [next,ih _ _ fun i low high => good i (by simp at low; omega) (by simp at high; omega)]
      simp [List.range'_succ]
    · rw [here] at bad
      cases bad

theorem setUpStops {n : Nat} {ioQpairs : List Entry} {t : Trace} {i : Nat} (bad : ready env i = false)
    (low : ioQpairs.length ≤ i) : (setUp env n ioQpairs t).1.length ≤ i := by
  induction n generalizing ioQpairs t with
  | zero => exact low
  | succ n ih =>
    rcases setUpStep env n ioQpairs t with ⟨here,base,next⟩ | ⟨_,_,stop⟩
    · have other : ioQpairs.length ≠ i := by
        intro same
        rw [same,bad] at here
        cases here
      rw [next]
      refine ih ?_
      rw [List.length_append,List.length_singleton]
      omega
    · rw [stop]
      exact low

theorem setUpWritten {n : Nat} {ioQpairs : List Entry} {t : Trace} (written : ∀ i ∈ t.written, i < ioQpairs.length) :
    ∀ i ∈ (setUp env n ioQpairs t).2.written, i < (setUp env n ioQpairs t).1.length := by
  induction n generalizing ioQpairs t with
  | zero => exact written
  | succ n ih =>
    rcases setUpStep env n ioQpairs t with ⟨_,base,next⟩ | ⟨_,_,stop⟩
    · rw [next]
      refine ih fun i mem => ?_
      rw [List.length_append]
      rcases List.mem_append.mp mem with old | new
      · exact Nat.lt_add_right _ (written i old)
      · rw [List.mem_singleton.mp new]
        exact Nat.lt_succ_self _
    · rw [stop]
      exact written

theorem cleanUpReads (ioQpairs : List Entry) (i : Nat) (t : Trace) :
    (cleanUp env ioQpairs i t).reads = t.reads ++ (List.range (i + 1)).reverse := by
  induction i generalizing t with
  | zero => rfl
  | succ i ih => rw [cleanUp,ih,@List.range_succ (i + 1),List.reverse_append,freeBase,List.append_assoc]; rfl

theorem cleanUpKeeps (ioQpairs : List Entry) (i : Nat) (t : Trace) :
    (cleanUp env ioQpairs i t).written = t.written ∧ (cleanUp env ioQpairs i t).stateFreed = t.stateFreed := by
  induction i generalizing t with
  | zero => exact ⟨rfl,rfl⟩
  | succ i ih => exact ih (freeBase env ioQpairs (i + 1) t)

theorem cleanUpReleases (ioQpairs : List Entry) (t : Trace) : (cleanUp env ioQpairs ioQpairs.length t).released =
    t.released ++ env.unset ioQpairs.length::(ioQpairs.map Entry.base).reverse := by
  have down (i : Nat) (low : i < ioQpairs.length) (t : Trace) : (cleanUp env ioQpairs i t).released =
      t.released ++ ((ioQpairs.take (i + 1)).map Entry.base).reverse := by
    induction i generalizing t with
    | zero =>
      obtain ⟨e,rest,rfl⟩ := List.exists_cons_of_length_pos low
      simp [cleanUp,freeBase]
    | succ i ih =>
      rw [cleanUp,ih (by omega),List.take_succ_eq_append_getElem low,List.map_append,List.reverse_append,freeBase,
        List.getElem?_eq_getElem low,List.append_assoc]
      rfl
  cases size : ioQpairs.length with
  | zero =>
    cases List.length_eq_zero_iff.mp size
    rfl
  | succ n =>
    rw [cleanUp,down n (by omega),← size,List.take_length]
    simp [freeBase]

theorem enoughFalse {count : Nat} (fails : enough env count = false) (array : env.array = true) :
    ∃ i < count, ready env i = false := by
  rw [enough,array,Bool.true_and,List.all_eq_false] at fails
  obtain ⟨i,mem,bad⟩ := fails
  exact ⟨i,List.mem_range.mp mem,Bool.eq_false_iff.mpr bad⟩

theorem enoughTrue {count : Nat} (enough_ : enough env count = true) :
    env.array = true ∧ ∀ i < count, ready env i = true := by
  obtain ⟨array,all⟩ := (Bool.and_eq_true _ _).mp enough_
  exact ⟨array,fun i low => List.all_eq_true.mp all i (List.mem_range.mpr low)⟩

theorem setUpShort {count : Nat} (fails : enough env count = false) (array : env.array = true) (t : Trace) :
    (setUp env count [] t).1.length < count := by
  obtain ⟨i,low,bad⟩ := enoughFalse fails array
  exact Nat.lt_of_le_of_lt (setUpStops bad (Nat.zero_le i)) low

theorem createShort {count : Nat} (fails : enough env count = false) (array : env.array = true) (t : Trace) :
    nvmeCreateIoQpairs env count t =
      let (ioQpairs,after) := setUp env count [] t
      let after := cleanUp env ioQpairs ioQpairs.length after
      (-1,[],{ after with arrayFreed := after.arrayFreed + 1 }) := by
  rw [nvmeCreateIoQpairs,if_pos array]
  exact if_pos (Nat.ne_of_lt (setUpShort fails array t))

theorem createsPairs (env : Env) (count : Nat) (t : Trace) :
    (match nvmeCreateIoQpairs env count t with
      | (0,ioQpairs,_) => some (ioQpairs.map Entry.qpair)
      | _ => none) = NvmeInit.nvmeCreateIoQpairs (enough env count) count := by
  cases all : enough env count with
  | true =>
    obtain ⟨array,good⟩ := enoughTrue all
    have pairs := setUpAll count [] t fun i _ high => good i (by simpa using high)
    have length : (setUp env count [] t).1.length = count := by simpa using congrArg List.length pairs
    have made : nvmeCreateIoQpairs env count t = (0,setUp env count [] t) := by
      rw [nvmeCreateIoQpairs,if_pos array]
      exact if_neg (not_not.mpr length)
    rw [made,NvmeInit.nvmeCreateIoQpairs,if_pos rfl,List.range_eq_range']
    exact congrArg some pairs
  | false =>
    cases array : env.array with
    | true =>
      rw [createShort all array]
      rfl
    | false =>
      rw [nvmeCreateIoQpairs,if_neg (by rw [array]; exact Bool.false_ne_true)]
      rfl

theorem setUpKeeps (n : Nat) (ioQpairs : List Entry) (t : Trace) :
    (setUp env n ioQpairs t).2.released = t.released ∧ (setUp env n ioQpairs t).2.stateFreed = t.stateFreed := by
  induction n generalizing ioQpairs t with
  | zero => exact ⟨rfl,rfl⟩
  | succ n ih =>
    rcases setUpStep env n ioQpairs t with ⟨_,base,next⟩ | ⟨_,_,stop⟩
    · rw [next]
      exact ih _ _
    · rw [stop]
      exact ⟨rfl,rfl⟩

theorem shortReleases {count : Nat} (fails : enough env count = false) (array : env.array = true) :
    (initQpairs env count .start).1 = -7 ∧ (initQpairs env count .start).2.2.stateFreed = 1 ∧
    (initQpairs env count .start).2.2.released = env.unset (setUp env count [] .start).1.length::
      ((setUp env count [] .start).1.map Entry.base).reverse := by
  have kept := @setUpKeeps env count [] .start
  rw [initQpairs,createShort fails array]
  refine ⟨rfl,?_,?_⟩
  · change (cleanUp env _ _ _).stateFreed + 1 = 1
    rw [(cleanUpKeeps _ _ _).2,kept.2]
    rfl
  · change (cleanUp env _ _ _).released = _
    rw [cleanUpReleases,kept.1]
    rfl

/-- No failure is cleaned up: without the array the state is freed twice, and from any queue on
the entry of that queue is read, which was not written. -/
theorem neverCleanedUp (env : Env) (count : Nat) (fails : enough env count = false) : ¬ CleanedUp env count := by
  intro clean
  cases array : env.array with
  | false =>
    have owned := clean.owned
    simp [nvmeCreateIoQpairs,array,Trace.start] at owned
  | true =>
    have reads := clean.reads (setUp env count [] .start).1.length
    rw [createShort fails array] at reads
    have inside : (setUp env count [] .start).1.length ∈
        (cleanUp env (setUp env count [] .start).1 (setUp env count [] .start).1.length (setUp env count [] .start).2).reads := by
      rw [cleanUpReads,List.mem_append,List.mem_reverse,List.mem_range]
      exact .inr (Nat.lt_succ_self _)
    have set := reads inside
    rw [(cleanUpKeeps _ _ _).1] at set
    have low := setUpWritten (fun i mem => absurd mem List.not_mem_nil) _ set
    omega

def noPages : Env := ⟨true,fun _ => none,fun _ => true,fun _ => true,fun _ => 0⟩

theorem oneQueueNotCleanedUp : ¬ CleanedUp noPages 1 := neverCleanedUp noPages 1 (by decide)

theorem unsetEntryFreed : ¬ ∀ env count, enough env count = false → CleanedUp env count := by
  intro all
  have read := (all noPages 1 (by decide)).reads 0 (by decide)
  exact absurd read (by decide)

end

end Kdrivers.NvmeCleanup
