import Mathlib.Algebra.Order.BigOperators.Group.List
import Mathlib.Data.Finset.Sort
import Kdrivers.FirstSet
import Kdrivers.NvmeIdentify

/-! The namespaces of a controller (nvme_list_namespaces in nvme.c): the command sets of a
vector, bit by bit, each listed in pages of 1024 namespaces from a cursor on. -/
namespace Kdrivers.NvmeList
open Bytes FirstSet NvmeIdentify

structure Namespace where
  commandSet : Int
  nsid : BitVec 32
  deriving DecidableEq, Repr

structure Memory where
  page : Nat → Bool
  element : Nat → Bool

structure Listing where
  list : List Namespace
  count : BitVec 32
  allocated : Nat

-- the bit of an int, as a mask of a uint64_t
def clearBit (sets : BitVec 64) (idx : Nat) : BitVec 64 := sets &&& (~~~((1 : BitVec 32) <<< idx)).signExtend 64

def listCommand (cntlid : BitVec 16) (idx : Int) (t : BitVec 32) : Identify :=
  ⟨0x7 ||| cntlid.setWidth 32 <<< 16,(BitVec.ofInt 32 idx &&& 0xFF) <<< 24,t⟩

def namespaces (page : Mem) : List (BitVec 32) := (List.range 1024).map fun i => .ofNat 32 (le32 page (4 * i))

def takePage (mem : Memory) (idx : Int) : List (BitVec 32) → BitVec 32 → Listing → BitVec 32 × Listing
  | [],t,st => (t,st)
  | id::ids,_,st =>
    if id = 0 then (0,st)
    else if !mem.element st.allocated then (id,{ st with allocated := st.allocated + 1 })
    else takePage mem idx ids id ⟨⟨idx,id⟩::st.list,st.count + 1,st.allocated + 1⟩

section Loops
variable (mem : Memory) (answer : Identify → BitVec 32 × Mem) (cntlid : BitVec 16)

def listSet (idx : Int) : Nat → BitVec 32 → Listing → Outcome Listing
  | 0,_,_ => .running
  | fuel+1,t,st =>
    let (status,page) := answer (listCommand cntlid idx t)
    if status ≠ 0 then .ret st
    else
      let (t,st) := takePage mem idx (namespaces page) t st
      if t ≠ 0 then listSet idx fuel t st else .ret st

/- A page that could not be allocated is cleared; a shift by a negative count is undefined. -/
def listSets : Nat → BitVec 64 → Nat → Listing → Outcome Listing
  | 0,_,_,_ => .running
  | fuel+1,sets,pages,st =>
    if sets = 0 then .ret st
    else if !mem.page pages then .fault .nullPointer
    else do
      let st ← listSet mem answer cntlid ((builtinFfs sets : Int) - 1) fuel 0 st
      match builtinFfs sets with
      | 0 => .fault .tableIndex
      | idx+1 => listSets fuel (clearBit sets idx) (pages + 1) st

def nvmeListNamespaces (sets : BitVec 64) (ret : List Namespace) (fuel : Nat) : Outcome (Int × List Namespace) :=
  (listSets mem answer cntlid fuel sets 0 ⟨ret,0,0⟩).map fun st => (st.count.toInt,st.list)

end Loops

def above (ids : Finset Nat) (t : Nat) : List Nat := ids.sort.filter fun id => decide (t < id)

structure Answers (answer : Identify → BitVec 32 × Mem) (active : Nat → Finset Nat) : Prop where
  ids : ∀ s, ∀ id ∈ active s, 0 < id ∧ id < 2^32
  status : ∀ cmd, cmd.cdw10.toNat % 256 = 7 → (answer cmd).1 = 0
  page : ∀ cmd, cmd.cdw10.toNat % 256 = 7 → ∀ i < 1024,
    le32 (answer cmd).2 (4 * i) = (above (active (cmd.cdw11.toNat / 2^24)) cmd.nsid.toNat).getD i 0

structure Lists (answer : Identify → BitVec 32 × Mem) (mem : Memory) (cntlid : BitVec 16) (active : Nat → Finset Nat)
    (sets : BitVec 64) (n : Int) (list : List Namespace) : Prop where
  returns : ∃ enough, ∀ fuel, enough ≤ fuel → nvmeListNamespaces mem answer cntlid sets [] fuel = .ret (n,list)
  distinct : list.Nodup
  members : ∀ ns, ns ∈ list ↔ ∃ s id, sets.getLsbD s = true ∧ id ∈ active s ∧ ns = ⟨s,.ofNat 32 id⟩
  length : n = list.length

section
variable {ids : Finset Nat} {t : Nat}

theorem aboveMem {id : Nat} : id ∈ above ids t ↔ id ∈ ids ∧ t < id := by
  rw [above,List.mem_filter,Finset.mem_sort,decide_eq_true_iff]

theorem aboveSorted (ids : Finset Nat) (t : Nat) : (above ids t).Pairwise (· < ·) :=
  (Finset.sortedLT_sort ids).pairwise.filter _

theorem aboveNext {first rest : List Nat} {last : Nat} (split : above ids t = first ++ last::rest) :
    above ids last = rest := by
  have sorted := aboveSorted ids t
  rw [split,List.pairwise_append,List.pairwise_cons] at sorted
  have mem : last ∈ above ids t := by
    rw [split]
    exact List.mem_append_right _ List.mem_cons_self
  have later := (aboveMem.mp mem).2
  have again : above ids last = (above ids t).filter fun id => decide (last < id) := by
    rw [above,above,List.filter_filter]
    refine List.filter_congr fun id _ => ?_
    by_cases high : last < id
    · rw [decide_eq_true high,decide_eq_true (later.trans high),Bool.and_true]
    · rw [decide_eq_false high,Bool.false_and]
  rw [again,split,List.filter_append,List.filter_cons_of_neg (by simp)]
  have none : first.filter (fun id => decide (last < id)) = [] := by
    refine List.filter_eq_nil_iff.mpr fun id mem high => ?_
    have low := sorted.2.2 id mem last List.mem_cons_self
    exact absurd (of_decide_eq_true high) (by omega)
  rw [none,List.nil_append]
  exact List.filter_eq_self.mpr fun id mem => decide_eq_true (sorted.2.1.1 id mem)

end

def entry (s id : Nat) : Namespace := ⟨s,.ofNat 32 id⟩

def pushed (es : List Namespace) (st : Listing) : Listing :=
  ⟨es.reverse ++ st.list,st.count + .ofNat 32 es.length,st.allocated + es.length⟩

theorem pushedAppend (xs ys : List Namespace) (st : Listing) : pushed (xs ++ ys) st = pushed ys (pushed xs st) := by
  simp only [pushed,List.reverse_append,List.length_append,List.append_assoc,BitVec.ofNat_add,← BitVec.add_assoc,
    ← Nat.add_assoc]

theorem pushedCons (e : Namespace) (es : List Namespace) (st : Listing) :
    pushed (e::es) st = pushed es ⟨e::st.list,st.count + 1,st.allocated + 1⟩ := pushedAppend [e] es st

theorem pushedNone (st : Listing) : pushed [] st = st := by
  simp only [pushed,List.reverse_nil,List.nil_append,List.length_nil,Nat.add_zero]
  congr 1
  exact BitVec.add_zero _

section
variable {mem : Memory} {answer : Identify → BitVec 32 × Mem} {active : Nat → Finset Nat}

theorem wordNonzero {id : Nat} (word : 0 < id ∧ id < 2^32) : BitVec.ofNat 32 id ≠ 0 := by
  intro zero
  have value := congrArg BitVec.toNat zero
  rw [BitVec.toNat_ofNat,Nat.mod_eq_of_lt word.2] at value
  exact word.1.ne' value

theorem takeNonzero (allocates : ∀ k, mem.element k = true) (s : Nat) {ids : List Nat}
    (nonzero : ∀ id ∈ ids, 0 < id ∧ id < 2^32) (rest : List (BitVec 32)) (t : Nat) (st : Listing) :
    takePage mem s (ids.map (BitVec.ofNat 32) ++ rest) (.ofNat 32 t) st =
      takePage mem s rest (.ofNat 32 (ids.getLastD t)) (pushed (ids.map (entry s)) st) := by
  induction ids generalizing t st with
  | nil => rw [List.map_nil,List.map_nil,pushedNone]; rfl
  | cons id ids ih =>
    rw [List.map_cons,List.cons_append,takePage,if_neg (wordNonzero (nonzero id List.mem_cons_self)),
      if_neg (by simp [allocates]),
      ih (fun x mem => nonzero x (List.mem_cons_of_mem _ mem)),List.map_cons,pushedCons,List.getLastD_cons]
    rfl

theorem rangePadded {n : Nat} {f : Nat → Nat} {ids : List Nat} (reads : ∀ i < n, f i = ids.getD i 0) :
    (List.range n).map f = ids.take n ++ List.replicate (n - ids.length) 0 := by
  refine List.ext_getElem ?_ fun i low inside => ?_
  · simp only [List.length_map,List.length_range,List.length_append,List.length_take,List.length_replicate]
    omega
  · rw [List.length_map,List.length_range] at low
    rw [List.getElem_map,List.getElem_range,reads i low]
    by_cases before : i < ids.length
    · rw [List.getElem_append_left (by rw [List.length_take]; omega),List.getElem_take,List.getD_eq_getElem _ _ before]
    · rw [List.getElem_append_right (by rw [List.length_take]; omega),List.getElem_replicate,
        List.getD_eq_default _ _ (by omega)]

theorem namespacesEq {page : Mem} {ids : List Nat} (reads : ∀ i < 1024, le32 page (4 * i) = ids.getD i 0) :
    namespaces page = (ids.take 1024 ++ List.replicate (1024 - ids.length) 0).map (BitVec.ofNat 32) := by
  rw [← rangePadded reads,List.map_map]
  rfl

variable {cntlid : BitVec 16}

theorem commandKind (cntlid : BitVec 16) (s : Int) (t : BitVec 32) : (listCommand cntlid s t).cdw10.toNat % 256 = 7 := by
  have high : (cntlid.setWidth 32 <<< 16).toNat % 2^8 = 0 := by
    rw [BitVec.toNat_shiftLeft,Nat.shiftLeft_eq]
    omega
  change (7 ||| cntlid.setWidth 32 <<< 16 : BitVec 32).toNat % 2^8 = 7
  rw [BitVec.toNat_or,Nat.or_mod_two_pow,high]
  rfl

theorem commandSet {s : Nat} (low : s < 256) (t : BitVec 32) : (listCommand cntlid s t).cdw11.toNat / 2^24 = s := by
  have byte : (BitVec.ofInt 32 (s : Int) &&& 0xFF).toNat = s := by
    rw [BitVec.ofInt_natCast,BitVec.toNat_and,BitVec.toNat_ofNat]
    change s % 2^32 &&& (2^8 - 1) = s
    rw [Nat.and_two_pow_sub_one_eq_mod]
    omega
  change ((BitVec.ofInt 32 (s : Int) &&& 0xFF) <<< 24).toNat / 2^24 = s
  rw [BitVec.toNat_shiftLeft,byte,Nat.shiftLeft_eq]
  omega

theorem listSetRuns (cntlid : BitVec 16) (answers : Answers answer active) (allocates : ∀ k, mem.element k = true)
    {s : Nat} (low : s < 256)
    (fuel : Nat) {t : Nat} (word : t < 2^32) (st : Listing) (enough : (above (active s) t).length < 1024 * fuel) :
    listSet mem answer cntlid s fuel (.ofNat 32 t) st = .ret (pushed ((above (active s) t).map (entry s)) st) := by
  induction fuel generalizing t st with
  | zero => omega
  | succ fuel ih =>
    have kind := commandKind cntlid s (.ofNat 32 t)
    have reads := namespacesEq (answers.page _ kind)
    rw [commandSet low] at reads
    change namespaces _ = ((above (active s) (t % 2^32)).take 1024 ++
      List.replicate (1024 - (above (active s) (t % 2^32)).length) 0).map (BitVec.ofNat 32) at reads
    rw [Nat.mod_eq_of_lt word] at reads
    have words : ∀ id ∈ above (active s) t, 0 < id ∧ id < 2^32 := fun id mem => answers.ids s id (aboveMem.mp mem).1
    rw [listSet]
    simp only [answers.status _ kind,ne_eq,not_true_eq_false,if_false,reads]
    by_cases short : (above (active s) t).length < 1024
    · obtain ⟨zeros,more⟩ : ∃ n, 1024 - (above (active s) t).length = n + 1 := ⟨_,(Nat.succ_pred (by omega)).symm⟩
      rw [List.take_of_length_le short.le,more,List.map_append,List.replicate_succ,List.map_cons,
        takeNonzero allocates s words]
      rfl
    · obtain ⟨first,last,rest,split,count⟩ : ∃ first last rest,
          above (active s) t = first ++ last::rest ∧ first.length = 1023 :=
        ⟨_,_,_,(List.take_append_drop 1023 _).symm.trans (congrArg _ (List.drop_eq_getElem_cons (by omega))),by
          rw [List.length_take]; omega⟩
      have later := aboveNext split
      have length : (above (active s) t).length = 1024 + rest.length := by
        rw [split,List.length_append,List.length_cons,count]
        omega
      have page : (above (active s) t).take 1024 ++ List.replicate (1024 - (above (active s) t).length) 0 =
          first ++ [last] := by
        rw [show 1024 - (above (active s) t).length = 0 by omega,List.replicate_zero,List.append_nil,split,
          List.take_append,count,List.take_of_length_le (by omega)]
        rfl
      have inside : ∀ id ∈ first ++ [last], 0 < id ∧ id < 2^32 := fun id mem => words id (by
        rw [split]
        exact List.mem_append.mpr ((List.mem_append.mp mem).imp_right fun same =>
          List.mem_cons.mpr (.inl (List.mem_singleton.mp same))))
      have here := inside last (List.mem_append_right _ (List.mem_singleton_self last))
      have taken := takeNonzero allocates s inside [] t st
      rw [List.append_nil,List.getLastD_concat] at taken
      rw [page,taken]
      simp only [takePage,if_pos (wordNonzero here),ih here.2 _ (by rw [later]; omega),later,split]
      rw [← pushedAppend,← List.map_append,List.append_assoc,List.singleton_append]

def gathered (active : Nat → Finset Nat) (ss : List Nat) : List Namespace :=
  ss.flatMap fun s => (above (active s) 0).map (entry s)

theorem maskBit (f i : Nat) :
    (~~~((1 : BitVec 32) <<< f)).getLsbD i = (decide (i < 32) && decide (i ≠ f)) := by
  have one : (1 : BitVec 32).getLsbD (i - f) = decide (i - f = 0) := by
    change (1#32).getLsbD (i - f) = _
    rw [BitVec.getLsbD_one]
    rfl
  rw [BitVec.getLsbD_not,BitVec.getLsbD_shiftLeft,one]
  by_cases inside : i < 32 <;> by_cases before : i < f <;> by_cases same : i = f <;> simp [inside,before,same]
  all_goals omega

theorem clearBitLow (sets : BitVec 64) (f : Nat) {i : Nat} (inside : i < 32) :
    (clearBit sets f).getLsbD i = (sets.getLsbD i && decide (i ≠ f)) := by
  rw [clearBit,BitVec.getLsbD_and,BitVec.getLsbD_signExtend,if_pos inside,maskBit,
    decide_eq_true (show i < 64 by omega),decide_eq_true inside,Bool.true_and,Bool.true_and]

theorem clearBitHigh (sets : BitVec 64) (f : Nat) {i : Nat} (high : 32 ≤ i) :
    (clearBit sets f).getLsbD i = (sets.getLsbD i && decide (f ≠ 31)) := by
  have sign : (~~~((1 : BitVec 32) <<< f)).msb = decide (31 ≠ f) := by
    rw [BitVec.msb_eq_getLsbD_last,maskBit]
    rfl
  rw [clearBit,BitVec.getLsbD_and,BitVec.getLsbD_signExtend,if_neg (by omega),sign]
  by_cases inside : i < 64
  · rw [decide_eq_true inside,Bool.true_and]
    simp only [ne_comm]
  · rw [BitVec.getLsbD_of_ge _ _ (by omega),Bool.false_and,Bool.false_and]

theorem onesClear {sets : BitVec 64} {f : Nat} {rest : List Nat} (first : ones sets = f::rest) :
    ones (clearBit sets f) = rest := onesTail first fun _ inside => clearBitLow sets f inside

/- The vectors whose bits the loop meets all but those it drops. -/
def Met (sets : BitVec 64) : Prop := (∀ i, 32 ≤ i → sets.getLsbD i = false) ∨ sets.getLsbD 31 = true

theorem metClear {sets : BitVec 64} (f : Nat) (met : Met sets) : Met (clearBit sets f) := by
  by_cases top : f = 31
  · refine .inl fun i high => ?_
    rw [clearBitHigh sets f high]
    simp [top]
  · refine met.imp (fun none i high => ?_) fun some => ?_
    · rw [clearBitHigh sets f high,none i high,Bool.false_and]
    · rw [clearBitLow sets f (by omega),some]
      simp [Ne.symm top]

theorem metNone {sets : BitVec 64} (met : Met sets) (none : ones sets = []) : sets = 0 := by
  apply BitVec.eq_of_getLsbD_eq
  intro i _
  change sets.getLsbD i = (0#64).getLsbD i
  rw [BitVec.getLsbD_zero]
  have low (j : Nat) (few : j < 32) : sets.getLsbD j = false := by
    by_contra set
    have mem : j ∈ ones sets := onesMem.mpr ⟨few,by simpa using set⟩
    rw [none] at mem
    cases mem
  by_cases few : i < 32
  · exact low i few
  · have high := met.resolve_right (by rw [low 31 (by omega)]; exact Bool.false_ne_true)
    exact high i (by omega)

theorem listSetsRuns (answers : Answers answer active) (allocates : ∀ k, mem.element k = true)
    (paged : ∀ k, mem.page k = true) {turns : Nat} (few : ∀ s < 32, (above (active s) 0).length < 1024 * turns)
    (fuel : Nat) {sets : BitVec 64} (met : Met sets) (pages : Nat) (st : Listing)
    (enough : (ones sets).length + turns < fuel) :
    listSets mem answer cntlid fuel sets pages st = .ret (pushed (gathered active (ones sets)) st) := by
  induction fuel generalizing sets pages st with
  | zero => omega
  | succ fuel ih =>
    rw [listSets]
    cases first : ones sets with
    | nil =>
      rw [if_pos (metNone met first)]
      exact congrArg _ (pushedNone st).symm
    | cons f rest =>
      have here := onesMem.mp (first ▸ List.mem_cons_self : f ∈ ones sets)
      have some : sets ≠ 0 := by
        rintro rfl
        exact absurd here.2 (by simp)
      rw [first,List.length_cons] at enough
      have set := listSetRuns cntlid answers allocates (show f < 256 by omega) fuel (t := 0) (by omega) st
        ((few f here.1).trans_le (by omega))
      have index : (builtinFfs sets : Int) - 1 = f := by
        rw [ffsSome first]
        omega
      have next := ih (metClear f met) (pages + 1) (pushed ((above (active f) 0).map (entry f)) st)
        (by rw [onesClear first]; omega)
      rw [onesClear first] at next
      rw [if_neg some,if_neg (by simp [paged]),index]
      change listSet mem answer cntlid f fuel (.ofNat 32 0) st >>= _ = _
      rw [set,ffsSome first]
      simp only [Outcome.retBind,next,← pushedAppend]
      rfl

theorem listSetsNever {sets : BitVec 64} {i : Nat} (high : 32 ≤ i) (some : sets.getLsbD i = true)
    (none : sets.getLsbD 31 = false) (fuel pages : Nat) (st after : Listing) :
    listSets mem answer cntlid fuel sets pages st ≠ .ret after := by
  induction fuel generalizing sets pages st with
  | zero => exact nofun
  | succ fuel ih =>
    have nonzero : sets ≠ 0 := by
      rintro rfl
      exact absurd some (by simp)
    rw [listSets,if_neg nonzero]
    by_cases missing : (!mem.page pages) = true
    · rw [if_pos missing]
      exact nofun
    rw [if_neg missing]
    intro run
    obtain ⟨next,_,rest⟩ := Outcome.bindRet run
    cases first : ones sets with
    | nil =>
      rw [ffsNone first] at rest
      cases rest
    | cons f ones =>
      rw [ffsSome first] at rest
      have here := onesMem.mp (first ▸ List.mem_cons_self : f ∈ FirstSet.ones sets)
      have low : f ≠ 31 := by
        rintro rfl
        exact absurd here.2 (by rw [none]; exact Bool.false_ne_true)
      refine ih ?_ ?_ _ _ rest
      · rw [clearBitHigh sets f high,some]
        simpa using low
      · rw [clearBitLow sets f (by omega),none,Bool.false_and]

theorem gatheredMem (answers : Answers answer active) {ss : List Nat} {ns : Namespace} :
    ns ∈ gathered active ss ↔ ∃ s ∈ ss, ∃ id ∈ active s, ns = entry s id := by
  simp only [gathered,List.mem_flatMap,List.mem_map,aboveMem]
  constructor
  · rintro ⟨s,inside,id,⟨mem,_⟩,rfl⟩
    exact ⟨s,inside,id,mem,rfl⟩
  · rintro ⟨s,inside,id,mem,rfl⟩
    exact ⟨s,inside,id,⟨mem,(answers.ids s id mem).1⟩,rfl⟩

theorem entryInj {s s' id id' : Nat} (word : id < 2^32) (word' : id' < 2^32) (same : entry s id = entry s' id') :
    s = s' ∧ id = id' := by
  have sets : (s : Int) = s' := congrArg Namespace.commandSet same
  have ids := congrArg BitVec.toNat (congrArg Namespace.nsid same)
  change (BitVec.ofNat 32 id).toNat = (BitVec.ofNat 32 id').toNat at ids
  rw [BitVec.toNat_ofNat,BitVec.toNat_ofNat,Nat.mod_eq_of_lt word,Nat.mod_eq_of_lt word'] at ids
  exact ⟨Int.ofNat_inj.mp sets,ids⟩

theorem gatheredNodup (answers : Answers answer active) {ss : List Nat} (distinct : ss.Nodup) :
    (gathered active ss).Nodup := by
  have word {s id : Nat} (mem : id ∈ above (active s) 0) : id < 2^32 := (answers.ids s id (aboveMem.mp mem).1).2
  refine List.nodup_flatMap.mpr ⟨fun s _ => ?_,distinct.imp fun {s s'} apart => ?_⟩
  · have sorted := (aboveSorted (active s) 0).imp fun {x y} (less : x < y) => less.ne
    exact List.Nodup.map_on (fun x mem y mem' same => (entryInj (word mem) (word mem') same).2) sorted
  · intro ns mem mem'
    obtain ⟨id,inside,rfl⟩ := List.mem_map.mp mem
    obtain ⟨id',inside',same⟩ := List.mem_map.mp mem'
    exact apart (entryInj (word inside) (word inside') same.symm).1

theorem gatheredLength (answers : Answers answer active) (ss : List Nat) :
    (gathered active ss).length = (ss.map fun s => (active s).card).sum := by
  rw [gathered,List.length_flatMap]
  refine congrArg List.sum (List.map_congr_left fun s _ => ?_)
  have all : above (active s) 0 = (active s).sort :=
    List.filter_eq_self.mpr fun id mem => decide_eq_true (answers.ids s id ((Finset.mem_sort _).mp mem)).1
  rw [List.length_map,all,Finset.length_sort]

end

def pairs (active : Nat → Finset Nat) (sets : BitVec 64) : Nat :=
  (((List.range 64).filter sets.getLsbD).map fun s => (active s).card).sum

structure Listable (active : Nat → Finset Nat) (sets : BitVec 64) : Prop where
  met : (∀ s, 32 ≤ s → sets.getLsbD s = false) ∨ sets.getLsbD 31 = true
  dropped : ∀ s, 32 ≤ s → sets.getLsbD s = true → active s = ∅
  few : pairs active sets < 2^31

theorem pairsOnes {active : Nat → Finset Nat} {sets : BitVec 64}
    (dropped : ∀ s, 32 ≤ s → sets.getLsbD s = true → active s = ∅) :
    pairs active sets = ((ones sets).map fun s => (active s).card).sum := by
  have parts : List.range (32 + 32) = List.range 32 ++ (List.range 32).map (32 + ·) := List.range_add
  have rest : ((((List.range 32).map (32 + ·)).filter sets.getLsbD).map fun s => (active s).card).sum = 0 := by
    refine List.sum_eq_zero fun n mem => ?_
    obtain ⟨s,inside,rfl⟩ := List.mem_map.mp mem
    obtain ⟨range,set⟩ := List.mem_filter.mp inside
    obtain ⟨i,_,rfl⟩ := List.mem_map.mp range
    rw [dropped _ (Nat.le_add_right 32 i) set,Finset.card_empty]
  change (((List.range (32 + 32)).filter sets.getLsbD).map _).sum = _
  rw [parts,List.filter_append,List.map_append,List.sum_append,rest,Nat.add_zero]
  rfl

theorem metReturns {mem : Memory} {answer : Identify → BitVec 32 × Mem} {active : Nat → Finset Nat} (cntlid : BitVec 16)
    (answers : Answers answer active) (allocates : ∀ k, mem.element k = true) (paged : ∀ k, mem.page k = true)
    {sets : BitVec 64} (met : Met sets) : ∃ enough, ∀ fuel, enough ≤ fuel →
      nvmeListNamespaces mem answer cntlid sets [] fuel =
        .ret ((BitVec.ofNat 32 (gathered active (ones sets)).length).toInt,(gathered active (ones sets)).reverse) := by
  obtain ⟨turns,few⟩ : ∃ turns, ∀ s < 32, (above (active s) 0).length < 1024 * turns := by
    refine ⟨((List.range 32).map fun s => (above (active s) 0).length).sum + 1,fun s low => ?_⟩
    have one : (above (active s) 0).length ∈ (List.range 32).map fun s => (above (active s) 0).length :=
      List.mem_map.mpr ⟨s,List.mem_range.mpr low,rfl⟩
    have sum := List.le_sum_of_mem one
    omega
  refine ⟨(ones sets).length + turns + 1,fun fuel enough => ?_⟩
  rw [nvmeListNamespaces,listSetsRuns answers allocates paged few fuel met 0 ⟨[],0,0⟩ enough,pushed]
  change Outcome.ret (_,_) = _
  rw [List.append_nil]
  exact congrArg _ (congrArg (·,_) (congrArg BitVec.toInt (BitVec.zero_add _)))

theorem metOf {mem : Memory} {answer : Identify → BitVec 32 × Mem} {active : Nat → Finset Nat} {cntlid : BitVec 16}
    {sets : BitVec 64} {n : Int} {list : List Namespace} (lists : Lists answer mem cntlid active sets n list) :
    Met sets := by
  by_contra missed
  obtain ⟨some,none⟩ := not_or.mp missed
  push Not at some
  obtain ⟨i,high,set⟩ := some
  obtain ⟨enough,runs⟩ := lists.returns
  obtain ⟨after,run,_⟩ := Outcome.bindRet (runs enough (Nat.le_refl _))
  exact listSetsNever high (by simpa using set) (by simpa using none) _ _ _ _ run

theorem listsGathered {mem : Memory} {answer : Identify → BitVec 32 × Mem} {active : Nat → Finset Nat} {cntlid : BitVec 16}
    (answers : Answers answer active) (allocates : ∀ k, mem.element k = true) (paged : ∀ k, mem.page k = true)
    {sets : BitVec 64} {n : Int} {list : List Namespace} (lists : Lists answer mem cntlid active sets n list) :
    n = (BitVec.ofNat 32 (gathered active (ones sets)).length).toInt ∧ list = (gathered active (ones sets)).reverse := by
  obtain ⟨enough,runs⟩ := lists.returns
  obtain ⟨enough',returns⟩ := metReturns cntlid answers allocates paged (metOf lists)
  have same := (runs _ (Nat.le_max_left enough enough')).symm.trans (returns _ (Nat.le_max_right enough enough'))
  exact Prod.mk.inj (Outcome.ret.inj same)

theorem listsDropped {mem : Memory} {answer : Identify → BitVec 32 × Mem} {active : Nat → Finset Nat} {cntlid : BitVec 16}
    (answers : Answers answer active) (allocates : ∀ k, mem.element k = true) (paged : ∀ k, mem.page k = true)
    {sets : BitVec 64} {n : Int} {list : List Namespace} (lists : Lists answer mem cntlid active sets n list) {s : Nat}
    (high : 32 ≤ s) (set : sets.getLsbD s = true) : active s = ∅ := by
  refine Finset.eq_empty_of_forall_notMem fun id mem => ?_
  have listed := (lists.members (entry s id)).mpr ⟨s,id,set,mem,rfl⟩
  rw [(listsGathered answers allocates paged lists).2] at listed
  obtain ⟨s',one,id',_,same⟩ := (gatheredMem answers).mp (List.mem_reverse.mp listed)
  have sets : (s : Int) = s' := congrArg Namespace.commandSet same
  have low := (onesMem.mp one).1
  omega

/-- The list is right unless the vector has a set from 32 on that has namespaces or that bit
31 does not drop, or the pairs overflow an int. -/
theorem listsIff {mem : Memory} {answer : Identify → BitVec 32 × Mem} {active : Nat → Finset Nat} (cntlid : BitVec 16)
    (answers : Answers answer active) (allocates : ∀ k, mem.element k = true) (paged : ∀ k, mem.page k = true)
    (sets : BitVec 64) : (∃ n list, Lists answer mem cntlid active sets n list) ↔ Listable active sets := by
  constructor
  · rintro ⟨n,list,lists⟩
    obtain ⟨rfl,rfl⟩ := listsGathered answers allocates paged lists
    have dropped (s : Nat) (high : 32 ≤ s) (set : sets.getLsbD s = true) : active s = ∅ :=
      listsDropped answers allocates paged lists high set
    refine ⟨metOf lists,dropped,?_⟩
    have length := lists.length
    rw [List.length_reverse,gatheredLength answers,← pairsOnes dropped] at length
    exact intIff.mp length
  · rintro ⟨met,dropped,few⟩
    obtain ⟨enough,returns⟩ := metReturns cntlid answers allocates paged met
    refine ⟨_,_,⟨enough,returns⟩,List.nodup_reverse.mpr (gatheredNodup answers (onesNodup sets)),fun ns => ?_,?_⟩
    · rw [List.mem_reverse,gatheredMem answers]
      constructor
      · rintro ⟨s,one,id,mem,rfl⟩
        exact ⟨s,id,(onesMem.mp one).2,mem,rfl⟩
      · rintro ⟨s,id,set,mem,rfl⟩
        refine ⟨s,onesMem.mpr ⟨?_,set⟩,id,mem,rfl⟩
        by_contra high
        rw [dropped s (Nat.le_of_not_lt high) set] at mem
        cases mem
    · rw [List.length_reverse,gatheredLength answers,← pairsOnes dropped]
      exact intIff.mpr few

def pageOf (ids : List Nat) : Mem := fun b => .ofNat (ids.getD (b / 4) 0 / 256^(b % 4) % 256)

def controller (active : Nat → Finset Nat) (cmd : Identify) : BitVec 32 × Mem :=
  (0,pageOf (above (active (cmd.cdw11.toNat / 2^24)) cmd.nsid.toNat))

theorem pageOfReads {ids : List Nat} (words : ∀ id ∈ ids, id < 2^32) (i : Nat) :
    le32 (pageOf ids) (4 * i) = ids.getD i 0 := by
  have word : ids.getD i 0 < 2^32 := by
    by_cases inside : i < ids.length
    · rw [List.getD_eq_getElem _ _ inside]
      exact words _ (List.getElem_mem inside)
    · rw [List.getD_eq_default _ _ (Nat.le_of_not_lt inside)]
      omega
  have byte (k : Nat) (low : k < 4) : (pageOf ids (4 * i + k)).toNat = ids.getD i 0 / 256^k % 256 := by
    rw [pageOf,show (4 * i + k) / 4 = i by omega,show (4 * i + k) % 4 = k by omega,UInt8.toNat_ofNat']
    exact Nat.mod_mod _ _
  have first := byte 0 (by omega)
  have second := byte 1 (by omega)
  have third := byte 2 (by omega)
  have fourth := byte 3 (by omega)
  rw [le32,le16,le16]
  simp only [Nat.add_zero,Nat.add_assoc,Nat.reduceAdd] at *
  omega

theorem controllerAnswers {active : Nat → Finset Nat} (ids : ∀ s, ∀ id ∈ active s, 0 < id ∧ id < 2^32) :
    Answers (controller active) active :=
  ⟨ids,fun _ _ => rfl,fun _ _ i _ => pageOfReads (fun id mem => (ids _ id (aboveMem.mp mem).1).2) i⟩

def twoIn (set s : Nat) : Finset Nat := if s = set then {1,2} else ∅

theorem twoAnswers (set : Nat) : Answers (controller (twoIn set)) (twoIn set) := by
  refine controllerAnswers fun s id mem => ?_
  unfold twoIn at mem
  split_ifs at mem
  · obtain rfl | rfl : id = 1 ∨ id = 2 := by simpa using mem
    all_goals omega
  · cases mem

theorem twoListed : ∃ n list, Lists (controller (twoIn 0)) ⟨fun _ => true,fun _ => true⟩ 0 (twoIn 0) 1 n list := by
  refine (listsIff 0 (twoAnswers 0) (fun _ => rfl) (fun _ => rfl) 1).mpr ⟨.inl fun s high => ?_,fun s high _ => ?_,?_⟩
  · change (1#64).getLsbD s = false
    rw [BitVec.getLsbD_one,decide_eq_false (show s ≠ 0 by omega),Bool.and_false]
  · exact if_neg (by omega)
  · decide

theorem highSetDropped : ¬ ∀ (mem : Memory) (answer : Identify → BitVec 32 × Mem) (active : Nat → Finset Nat)
    (cntlid : BitVec 16) (sets : BitVec 64), Answers answer active → (∀ k, mem.element k = true) →
      (∀ k, mem.page k = true) → ∃ n list, Lists answer mem cntlid active sets n list := by
  intro all
  obtain ⟨_,_,lists⟩ := all ⟨fun _ => true,fun _ => true⟩ _ _ 0 0xFFFFFFFF80000000 (twoAnswers 32) (fun _ => rfl)
    (fun _ => rfl)
  have none_ := listsDropped (twoAnswers 32) (fun _ => rfl) (fun _ => rfl) lists (s := 32) (by decide) (by decide)
  exact absurd none_ (by decide)

end Kdrivers.NvmeList
