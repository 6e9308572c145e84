import Mathlib.Data.List.Dedup
import Mathlib.Data.List.Induction
import Mathlib.Data.List.Pairwise
import Kdrivers.PyDict

/-! The numbering of drivers (gen_dri_defs.py): from the pairs of group and name that the
sources register to an index for each, the same over a cluster of groups that share them. -/
namespace Kdrivers.DriverIndices
open PyDict

inductive PyError where
  | unknownGroup | keyError
  deriving DecidableEq, Repr

abbrev Definitions := Dict String (Dict String Int)

-- the pairs come in the order in which the sources and their lines are read
def enumerateSourceFiles (found : List (String × String)) : Definitions :=
  found.foldl (fun definitions (group,name) => match item? definitions group with
    | some names => setItem definitions group (setItem names name (-1))
    | none => setItem definitions group [(name,-1)]) []

structure SetOrder where
  list : List String → List String
  nodup : ∀ l, (list l).Nodup
  mem : ∀ l x, x ∈ list l ↔ x ∈ l

structure Tables where
  definitions : Definitions
  indices : Dict String Int

def assign (name : String) (idx : Int) (t : Tables) (group : String) : Except PyError Tables :=
  match item? t.definitions group with
  | none => .error .keyError
  | some names => match item? names name with
    | none => .ok { t with definitions := setItem t.definitions group (setItem names name (-100)) }
    | some v =>
      if v = -1 then .ok ⟨setItem t.definitions group (setItem names name idx),setItem t.indices group (idx + 1)⟩
      else .ok t

def indexOf (indices : Dict String Int) (group : String) : Except PyError Int := match item? indices group with
  | none => .error .keyError
  | some idx => .ok idx

section
variable (order : SetOrder) (shared : List (List String))

-- the index is that of the last group of the first cluster the definition is in
def fillName (definition : String) (t : Tables) (name : String) : Except PyError Tables :=
  match item? t.indices definition with
  | none => .error .unknownGroup
  | some idx => do
    let cluster := (shared.find? fun cluster => definition ∈ cluster).getD []
    let idx ← cluster.foldlM (fun _ group => indexOf t.indices group) idx
    (order.list (definition::cluster)).foldlM (assign name idx) t

-- the names are those the definition has when its turn comes: none is added to it meanwhile
def fillGroup (t : Tables) (definition : String) : Except PyError Tables :=
  match item? t.definitions definition with
  | none => .error .keyError
  | some names => (keys names).foldlM (fillName order shared definition) t

def fillInIndices (definitions : Definitions) (symbols : Dict String Nat) : Except PyError Definitions := do
  let indices := (keys symbols).foldl (fun indices symbol => setItem indices symbol 0) []
  let t ← (keys definitions).foldlM (fillGroup order shared) ⟨definitions,indices⟩
  .ok t.definitions

end

def indexIn (definitions : Definitions) (group name : String) : Option Int :=
  (item? definitions group).bind fun names => item? names name

structure Indexed (found : List (String × String)) (shared : List (List String)) (result : Definitions) : Prop where
  given : ∀ p ∈ found, ∃ i : Int, 0 ≤ i ∧ indexIn result p.1 p.2 = some i
  apart : ∀ g n m, (g,n) ∈ found → (g,m) ∈ found → n ≠ m → indexIn result g n ≠ indexIn result g m
  alike : ∀ cluster ∈ shared, ∀ g ∈ cluster, ∀ h ∈ cluster, ∀ n, (g,n) ∈ found → (h,n) ∈ found →
    indexIn result g n = indexIn result h n

def namesOf (definitions : Definitions) (group : String) : List String := ((item? definitions group).map keys).getD []

def turns (definitions : Definitions) (cluster : List String) : List String :=
  extend [] (((keys definitions).filter fun g => g ∈ cluster).flatMap (namesOf definitions))

def Complete (found : List (String × String)) (shared : List (List String)) : Prop :=
  ∀ cluster ∈ shared, (∃ p ∈ found, p.1 ∈ cluster) → ∀ h ∈ cluster, ∃ p ∈ found, p.1 = h

/- Between two names of one group, or at the first of them, comes a name that the last group
of the cluster has. -/
def Separated (found : List (String × String)) (shared : List (List String)) : Prop :=
  ∀ cluster ∈ shared, ∀ g ∈ cluster, ∀ n m a b c, (g,n) ∈ found → (g,m) ∈ found →
    turns (enumerateSourceFiles found) cluster = a ++ n::(b ++ m::c) →
      ∃ x ∈ n::b, ∃ last, cluster.getLast? = some last ∧ (last,x) ∈ found

structure Based (found : List (String × String)) (base : Definitions) : Prop where
  nodup : (keys base).Nodup
  rows : ∀ g row, item? base g = some row → (keys row).Nodup ∧ (∃ n, n ∈ keys row) ∧
    ∀ n ∈ keys row, item? row n = some (-1)
  mem : ∀ g n, n ∈ namesOf base g ↔ (g,n) ∈ found

theorem namesRow {definitions : Definitions} {g : String} {row : Dict String Int} (here : item? definitions g = some row) :
    namesOf definitions g = keys row := by
  rw [namesOf,here]
  rfl

theorem namesSet (definitions : Definitions) (g : String) (row : Dict String Int) (h : String) :
    namesOf (setItem definitions g row) h = if g = h then keys row else namesOf definitions h := by
  rw [namesOf,itemSet]
  split <;> rfl

theorem enumerated (found : List (String × String)) : Based found (enumerateSourceFiles found) := by
  induction found using List.reverseRecOn with
  | nil =>
    refine ⟨List.nodup_nil,fun g row none => ?_,fun g n => ?_⟩
    · cases none
    · simp [enumerateSourceFiles,namesOf,item?]
  | append_singleton found p ih =>
    obtain ⟨group,name⟩ := p
    have step : enumerateSourceFiles (found ++ [(group,name)]) =
        match item? (enumerateSourceFiles found) group with
        | some names => setItem (enumerateSourceFiles found) group (setItem names name (-1))
        | none => setItem (enumerateSourceFiles found) group [(name,-1)] := by
      rw [enumerateSourceFiles,List.foldl_append]
      rfl
    generalize enumerateSourceFiles found = base at *
    obtain ⟨row,same,nodup,some,fresh,mem⟩ : ∃ row, enumerateSourceFiles (found ++ [(group,name)]) = setItem base group row ∧
        (keys row).Nodup ∧ (∃ n, n ∈ keys row) ∧ (∀ n ∈ keys row, item? row n = some (-1)) ∧
        ∀ n, n ∈ keys row ↔ n ∈ namesOf base group ∨ n = name := by
      cases here : item? base group with
      | none =>
        rw [here] at step
        refine ⟨_,step,List.nodup_singleton _,⟨name,List.mem_singleton_self _⟩,fun n last => ?_,fun n => ?_⟩
        · cases List.mem_singleton.mp last
          exact if_pos rfl
        · simp [keys,namesOf,here]
      | some old =>
        rw [here] at step
        obtain ⟨unique,_,unset⟩ := ih.rows group old here
        have member (n : String) : n ∈ keys (setItem old name (-1)) ↔ n ∈ keys old ∨ n = name := by
          rw [keysSet]
          exact onceMem
        refine ⟨_,step,keysNodup unique name (-1),⟨name,(member name).mpr (.inr rfl)⟩,fun n last => ?_,fun n => ?_⟩
        · rw [itemSet]
          by_cases new : name = n
          · rw [if_pos new]
          · rw [if_neg new]
            exact unset n (((member n).mp last).resolve_right (Ne.symm new))
        · rw [member,namesRow here]
    rw [same]
    refine ⟨keysNodup ih.nodup group row,fun g other here => ?_,fun g n => ?_⟩
    · rw [itemSet] at here
      by_cases new : group = g
      · rw [if_pos new] at here
        cases here
        exact ⟨nodup,some,fresh⟩
      · rw [if_neg new] at here
        exact ih.rows g other here
    · rw [namesSet,List.mem_append,List.mem_singleton,← ih.mem]
      by_cases new : group = g
      · subst new
        rw [if_pos rfl,mem]
        simp
      · rw [if_neg new]
        simp [Ne.symm new]

def clusterOf (shared : List (List String)) (g : String) : List String :=
  (shared.find? fun cluster => g ∈ cluster).getD [g]

def lastOf (shared : List (List String)) (g : String) : String := (clusterOf shared g).getLast?.getD g

def Disjoint (shared : List (List String)) : Prop := shared.Pairwise fun c d => ∀ g ∈ c, g ∉ d

theorem clusterOwn (shared : List (List String)) (g : String) : g ∈ clusterOf shared g := by
  unfold clusterOf
  cases found : shared.find? fun cluster => g ∈ cluster with
  | none => exact List.mem_singleton_self g
  | some cluster => simpa using List.find?_some found

theorem clusterIn {shared : List (List String)} (disjoint : Disjoint shared) {cluster : List String} (mem : cluster ∈ shared)
    {g : String} (inside : g ∈ cluster) : clusterOf shared g = cluster := by
  unfold clusterOf
  cases found : shared.find? fun cluster => g ∈ cluster with
  | none => exact absurd inside (by simpa using List.find?_eq_none.mp found cluster mem)
  | some other =>
    have here : g ∈ other := by simpa using List.find?_some found
    by_contra differ
    have symm : Std.Symm fun c d : List String => ∀ g ∈ c, g ∉ d := ⟨fun c d none g left right => none g right left⟩
    exact List.Pairwise.forall disjoint mem (List.mem_of_find?_eq_some found) (Ne.symm differ) g inside here

theorem clusterSame {shared : List (List String)} (disjoint : Disjoint shared) {g h : String}
    (inside : h ∈ clusterOf shared g) : clusterOf shared h = clusterOf shared g := by
  cases found : shared.find? fun cluster => g ∈ cluster with
  | none =>
    have alone : clusterOf shared g = [g] := by rw [clusterOf,found]; rfl
    rw [alone] at inside
    rw [List.mem_singleton.mp inside]
  | some cluster =>
    have whole : clusterOf shared g = cluster := by rw [clusterOf,found]; rfl
    rw [whole] at inside ⊢
    exact clusterIn disjoint (List.mem_of_find?_eq_some found) inside

theorem lastIn (shared : List (List String)) (g : String) : lastOf shared g ∈ clusterOf shared g := by
  have some := clusterOwn shared g
  unfold lastOf
  cases last : (clusterOf shared g).getLast? with
  | none => rw [List.getLast?_eq_none_iff.mp last] at some; cases some
  | some l => exact List.mem_of_getLast? last

theorem lastSame {shared : List (List String)} (disjoint : Disjoint shared) {g h : String}
    (inside : h ∈ clusterOf shared g) : lastOf shared h = lastOf shared g := by
  have some := clusterOwn shared g
  unfold lastOf
  rw [clusterSame disjoint inside]
  cases last : (clusterOf shared g).getLast? with
  | none => rw [List.getLast?_eq_none_iff.mp last] at some; cases some
  | some l => rfl

theorem membersOf (order : SetOrder) (shared : List (List String)) (g h : String) :
    h ∈ order.list (g::(shared.find? fun cluster => g ∈ cluster).getD []) ↔ h ∈ clusterOf shared g := by
  rw [order.mem]
  unfold clusterOf
  cases found : shared.find? fun cluster => g ∈ cluster with
  | none => exact Iff.rfl
  | some cluster =>
    have own : g ∈ cluster := by simpa using List.find?_some found
    exact ⟨fun mem => (List.mem_cons.mp mem).elim (fun same => same ▸ own) id,List.mem_cons_of_mem g⟩

theorem foldIndex {indices : Dict String Int} {cluster : List String} (known : ∀ h ∈ cluster, h ∈ keys indices) (idx : Int) :
    cluster.foldlM (fun _ group => indexOf indices group) idx =
      .ok ((cluster.getLast?.bind (item? indices)).getD idx) := by
  induction cluster generalizing idx with
  | nil => rfl
  | cons h rest ih =>
    obtain ⟨i,here⟩ := itemMem.mpr (known h List.mem_cons_self)
    rw [List.foldlM_cons,indexOf,here]
    change rest.foldlM _ i = _
    rw [ih fun k mem => known k (List.mem_cons_of_mem _ mem)]
    cases rest with
    | nil => simp [here]
    | cons k rest =>
      rw [List.getLast?_cons_cons]
      obtain ⟨j,last⟩ := itemMem.mpr (known _ (List.mem_cons_of_mem h (List.getLast_mem (List.cons_ne_nil k rest))))
      rw [List.getLast?_eq_some_getLast (List.cons_ne_nil k rest),Option.bind_some,last]
      rfl

def fillRow (name : String) (idx : Int) (row : Dict String Int) : Dict String Int := match item? row name with
  | none => setItem row name (-100)
  | some v => if v = -1 then setItem row name idx else row

theorem fillRowKeys (name : String) (idx : Int) (row : Dict String Int) :
    keys (fillRow name idx row) = once (keys row) name := by
  unfold fillRow once
  cases here : item? row name with
  | none =>
    rw [keysSet]
  | some v =>
    have present := itemMem.mp ⟨v,here⟩
    rw [if_pos present]
    change keys (if v = -1 then setItem row name idx else row) = keys row
    split
    · exact keysOf present idx
    · rfl

theorem fillRowItem (name : String) (idx : Int) (row : Dict String Int) (n : String) :
    item? (fillRow name idx row) n = if name = n then
      some (match item? row name with
        | none => -100
        | some v => if v = -1 then idx else v)
      else item? row n := by
  unfold fillRow
  cases here : item? row name with
  | none => exact itemSet row name (-100) n
  | some v =>
    change item? (if v = -1 then setItem row name idx else row) n = _
    split
    · rw [itemSet]
      by_cases same : name = n
      · rw [if_pos same,if_pos same]
        exact congrArg some (if_pos ‹v = -1›).symm
      · rw [if_neg same,if_neg same]
    · by_cases same : name = n
      · rw [if_pos same,← same,here]
        exact congrArg some (if_neg ‹¬ v = -1›).symm
      · rw [if_neg same]

theorem assignOne (name : String) (idx : Int) {t : Tables} {h : String} (present : h ∈ keys t.definitions) :
    ∃ after, assign name idx t h = .ok after ∧ keys after.definitions = keys t.definitions ∧
      (∀ k, item? after.definitions k =
        if h = k then (item? t.definitions k).map (fillRow name idx) else item? t.definitions k) ∧
      ∀ k, item? after.indices k =
        if h = k ∧ indexIn t.definitions k name = some (-1) then some (idx + 1) else item? t.indices k := by
  obtain ⟨row,here⟩ := itemMem.mpr present
  have own : indexIn t.definitions h name = item? row name := by rw [indexIn,here]; rfl
  cases cell : item? row name with
  | none =>
    have step : assign name idx t h =
        .ok { t with definitions := setItem t.definitions h (setItem row name (-100)) } := by
      simp only [assign,here,cell]
    refine ⟨_,step,keysOf present _,fun k => ?_,fun k => ?_⟩
    · rw [itemSet]
      split
      · subst ‹h = k›
        rw [here,Option.map_some,fillRow,cell]
      · rfl
    · refine (if_neg ?_).symm
      rintro ⟨rfl,unset⟩
      rw [own,cell] at unset
      cases unset
  | some v =>
    by_cases unset : v = -1
    · have step : assign name idx t h =
          .ok ⟨setItem t.definitions h (setItem row name idx),setItem t.indices h (idx + 1)⟩ := by
        simp only [assign,here,cell,if_pos unset]
      refine ⟨_,step,keysOf present _,fun k => ?_,fun k => ?_⟩
      · rw [itemSet]
        split
        · subst ‹h = k›
          rw [here,Option.map_some,fillRow,cell]
          exact congrArg some (if_pos unset).symm
        · rfl
      · rw [itemSet]
        refine if_congr ⟨?_,And.left⟩ rfl rfl
        rintro rfl
        rw [own,cell,unset]
        exact ⟨rfl,rfl⟩
    · have step : assign name idx t h = .ok t := by
        simp only [assign,here,cell,if_neg unset]
      refine ⟨t,step,rfl,fun k => ?_,fun k => ?_⟩
      · split
        · subst ‹h = k›
          rw [here,Option.map_some,fillRow,cell]
          exact congrArg some (if_neg unset).symm
        · rfl
      · refine (if_neg ?_).symm
        rintro ⟨rfl,other⟩
        rw [own,cell] at other
        exact unset (Option.some.inj other)

theorem assignAll (name : String) (idx : Int) {hs : List String} (nodup : hs.Nodup) {t : Tables}
    (present : ∀ h ∈ hs, h ∈ keys t.definitions) :
    ∃ after, hs.foldlM (assign name idx) t = .ok after ∧ keys after.definitions = keys t.definitions ∧
      (∀ k, item? after.definitions k =
        if k ∈ hs then (item? t.definitions k).map (fillRow name idx) else item? t.definitions k) ∧
      ∀ k, item? after.indices k =
        if k ∈ hs ∧ indexIn t.definitions k name = some (-1) then some (idx + 1) else item? t.indices k := by
  induction hs generalizing t with
  | nil => exact ⟨t,rfl,rfl,fun k => (if_neg List.not_mem_nil).symm,fun k => (if_neg fun both => List.not_mem_nil both.1).symm⟩
  | cons h hs ih =>
    obtain ⟨fresh,nodup⟩ := List.nodup_cons.mp nodup
    obtain ⟨next,run,same,rows,counts⟩ := assignOne name idx (present h List.mem_cons_self)
    obtain ⟨after,rest,kept,filled,counted⟩ := ih nodup (t := next) fun k mem => by
      rw [same]
      exact present k (List.mem_cons_of_mem h mem)
    refine ⟨after,?_,kept.trans same,fun k => ?_,fun k => ?_⟩
    · rw [List.foldlM_cons,run]
      exact rest
    · rw [filled,rows]
      by_cases first : h = k
      · subst first
        rw [if_neg fresh,if_pos rfl,if_pos List.mem_cons_self]
      · rw [if_neg first]
        exact if_congr ⟨List.mem_cons_of_mem h,fun mem => (List.mem_cons.mp mem).resolve_left (Ne.symm first)⟩ rfl rfl
    · have cell : indexIn next.definitions k name = if h = k then (item? t.definitions k).bind
          (fun row => item? (fillRow name idx row) name) else indexIn t.definitions k name := by
        rw [indexIn,rows]
        split
        · cases item? t.definitions k <;> rfl
        · rfl
      rw [counted,counts]
      by_cases first : h = k
      · subst first
        have absent : ¬ (h ∈ hs ∧ indexIn next.definitions h name = some (-1)) := fun both => fresh both.1
        rw [if_neg absent]
        exact if_congr ⟨fun both => ⟨List.mem_cons_self,both.2⟩,fun both => ⟨rfl,both.2⟩⟩ rfl rfl
      · have other : ¬ (h = k ∧ indexIn t.definitions k name = some (-1)) := fun both => first both.1
        rw [cell,if_neg first,if_neg other]
        refine if_congr (and_congr_left fun _ => ⟨List.mem_cons_of_mem h,fun mem => ?_⟩) rfl rfl
        exact (List.mem_cons.mp mem).resolve_left (Ne.symm first)

def rank (base : Definitions) (last : String) (l : List String) (n : String) : Nat :=
  ((l.takeWhile fun m => m ≠ n).filter fun m => m ∈ namesOf base last).length

def tally (base : Definitions) (last : String) (l : List String) : Nat :=
  (l.filter fun m => m ∈ namesOf base last).length

theorem takeOld {l : List String} {n : String} (old : n ∈ l) (rest : List String) :
    (l ++ rest).takeWhile (fun m => m ≠ n) = l.takeWhile fun m => m ≠ n := by
  induction l with
  | nil => cases old
  | cons m l ih =>
    by_cases here : m = n
    · simp [here]
    · have later := (List.mem_cons.mp old).resolve_left (Ne.symm here)
      simpa [here] using ih later

theorem takeNew {l : List String} {n : String} (fresh : n ∉ l) (rest : List String) :
    (l ++ n::rest).takeWhile (fun m => m ≠ n) = l := by
  induction l with
  | nil => simp
  | cons m l ih =>
    have other : m ≠ n := fun same => fresh (same ▸ List.mem_cons_self)
    simpa [other] using ih fun mem => fresh (List.mem_cons_of_mem m mem)

theorem rankOnce (base : Definitions) (last : String) {l : List String} {n : String} (old : n ∈ l) (m : String) :
    rank base last (once l m) n = rank base last l n := by
  unfold once rank
  split
  · rfl
  · rw [takeOld old]

theorem rankNew (base : Definitions) (last : String) {l : List String} {n : String} (fresh : n ∉ l) :
    rank base last (once l n) n = tally base last l := by
  rw [once,if_neg fresh,rank,takeNew fresh,tally]

theorem tallyOnce (base : Definitions) (last : String) (l : List String) (n : String) :
    tally base last (once l n) = if n ∉ l ∧ n ∈ namesOf base last then tally base last l + 1 else tally base last l := by
  unfold once tally
  by_cases old : n ∈ l
  · rw [if_pos old,if_neg fun both => both.1 old]
  · rw [if_neg old,List.filter_append,List.length_append]
    by_cases counted : n ∈ namesOf base last
    · rw [if_pos ⟨old,counted⟩,List.filter_cons_of_pos (by simpa using counted)]
      rfl
    · rw [if_neg fun both => counted both.2,List.filter_cons_of_neg (by simpa using counted)]
      rfl

def cell (base : Definitions) (shared : List (List String)) (seen : List String → List String) (g n : String) :
    Option Int :=
  if n ∈ seen (clusterOf shared g) then
    some (if n ∈ namesOf base g then rank base (lastOf shared g) (seen (clusterOf shared g)) n else -100)
  else if n ∈ namesOf base g then some (-1) else none

structure Shown (base : Definitions) (shared : List (List String)) (seen : List String → List String) (t : Tables) :
    Prop where
  groups : keys t.definitions = keys base
  rows : ∀ g row, item? t.definitions g = some row → ∃ extras, keys row = namesOf base g ++ extras ∧
    ∀ n ∈ extras, n ∈ seen (clusterOf shared g)
  cells : ∀ g ∈ keys base, ∀ n, indexIn t.definitions g n = cell base shared seen g n
  counters : ∀ g ∈ keys base, lastOf shared g ∈ keys base →
    item? t.indices (lastOf shared g) = some (tally base (lastOf shared g) (seen (clusterOf shared g)) : Int)
  known : ∀ g ∈ keys base, g ∈ keys t.indices

section
variable {base : Definitions} {shared : List (List String)} {seen : List String → List String} {t : Tables}

theorem cellUnset (g n : String) : cell base shared seen g n = some (-1) ↔
    n ∉ seen (clusterOf shared g) ∧ n ∈ namesOf base g := by
  unfold cell
  by_cases old : n ∈ seen (clusterOf shared g)
  · rw [if_pos old]
    refine ⟨fun unset => ?_,fun both => absurd old both.1⟩
    have value := Option.some.inj unset
    split at value <;> omega
  · rw [if_neg old]
    by_cases own : n ∈ namesOf base g
    · simp [old,own]
    · simp [own]

def seeing (shared : List (List String)) (seen : List String → List String) (g : String) (names : List String) :
    List String → List String := Function.update seen (clusterOf shared g) (extend (seen (clusterOf shared g)) names)

theorem seeingOwn {g h : String} (same : clusterOf shared h = clusterOf shared g) (names : List String) :
    seeing shared seen g names (clusterOf shared h) = extend (seen (clusterOf shared g)) names := by
  rw [same]
  exact Function.update_self _ _ _

theorem seeingOther {g h : String} (other : clusterOf shared h ≠ clusterOf shared g) (names : List String) :
    seeing shared seen g names (clusterOf shared h) = seen (clusterOf shared h) := Function.update_of_ne other _ _

theorem cellTurn {g h : String} (same : clusterOf shared h = clusterOf shared g) (lasts : lastOf shared h = lastOf shared g)
    (name n : String) : cell base shared (seeing shared seen g [name]) h n =
      if name = n then some (match cell base shared seen h name with
        | none => -100
        | some v => if v = -1 then (tally base (lastOf shared g) (seen (clusterOf shared g)) : Int) else v)
      else cell base shared seen h n := by
  unfold cell
  rw [seeingOwn same,same,lasts]
  change (if n ∈ once (seen (clusterOf shared g)) name then some (if n ∈ namesOf base h then
    ((rank base (lastOf shared g) (once (seen (clusterOf shared g)) name) n : Nat) : Int) else -100) else _) = _
  generalize seen (clusterOf shared g) = l
  by_cases here : name = n
  · subst here
    rw [if_pos (onceMem.mpr (.inr rfl)),if_pos rfl]
    by_cases old : name ∈ l
    · rw [if_pos old,rankOnce base _ old]
      refine congrArg some (if_neg ?_).symm
      split <;> omega
    · rw [if_neg old,rankNew base _ old]
      split <;> rfl
  · rw [if_neg here]
    by_cases old : n ∈ l
    · rw [if_pos old,if_pos (onceMem.mpr (.inl old)),rankOnce base _ old]
    · have fresh : n ∉ once l name := fun mem => (onceMem.mp mem).elim old fun same => here same.symm
      rw [if_neg old,if_neg fresh]

theorem countAt (shown : Shown base shared seen t) {g : String} (own : g ∈ keys base)
    (complete : ∀ h ∈ clusterOf shared g, h ∈ keys base) : ∃ idx, item? t.indices g = some idx ∧
      (((shared.find? fun cluster => g ∈ cluster).getD []).foldlM (fun _ group => indexOf t.indices group) idx :
          Except PyError Int) =
        .ok (tally base (lastOf shared g) (seen (clusterOf shared g)) : Int) := by
  obtain ⟨idx,here⟩ := itemMem.mpr (shown.known g own)
  have count := shown.counters g own (complete _ (lastIn shared g))
  refine ⟨idx,here,?_⟩
  have known : ∀ h ∈ (shared.find? fun cluster => g ∈ cluster).getD [], h ∈ keys t.indices := fun h mem => by
    refine shown.known h (complete h ?_)
    unfold clusterOf
    cases found : shared.find? fun cluster => g ∈ cluster with
    | none => rw [found] at mem; cases mem
    | some cluster => rwa [found] at mem
  rw [foldIndex known]
  congr 1
  unfold lastOf clusterOf at count ⊢
  cases found : shared.find? fun cluster => g ∈ cluster with
  | none =>
    rw [found] at count
    exact Option.some.inj (here.symm.trans count)
  | some cluster =>
    have inside : g ∈ cluster := by simpa using List.find?_some found
    rw [found] at count
    change ((cluster.getLast?.bind (item? t.indices)).getD idx) = _
    change item? t.indices (cluster.getLast?.getD g) = some _ at count
    cases last : cluster.getLast? with
    | none => rw [List.getLast?_eq_none_iff.mp last] at inside; cases inside
    | some l =>
      rw [last] at count
      change item? t.indices l = some _ at count
      rw [Option.bind_some,count]
      rfl

structure Turned (shared : List (List String)) (g name : String) (idx : Int) (t after : Tables) : Prop where
  groups : keys after.definitions = keys t.definitions
  rows : ∀ h, item? after.definitions h =
    if h ∈ clusterOf shared g then (item? t.definitions h).map (fillRow name idx) else item? t.definitions h
  counts : ∀ h, item? after.indices h =
    if h ∈ clusterOf shared g ∧ indexIn t.definitions h name = some (-1) then some (idx + 1) else item? t.indices h

theorem fillNameTurned (order : SetOrder) (shown : Shown base shared seen t) {g : String} (own : g ∈ keys base)
    (complete : ∀ h ∈ clusterOf shared g, h ∈ keys base) (name : String) : ∃ after,
      fillName order shared g t name = .ok after ∧
      Turned shared g name (tally base (lastOf shared g) (seen (clusterOf shared g)) : Int) t after := by
  obtain ⟨idx,here,count⟩ := countAt shown own complete
  have members := membersOf order shared g
  have present : ∀ h ∈ order.list (g::(shared.find? fun cluster => g ∈ cluster).getD []), h ∈ keys t.definitions :=
    fun h mem => by
      rw [shown.groups]
      exact complete h ((members h).mp mem)
  obtain ⟨after,run,same,rows,counts⟩ := assignAll name (tally base (lastOf shared g) (seen (clusterOf shared g)) : Int)
    (order.nodup _) present
  simp only [members] at rows counts
  refine ⟨after,?_,same,rows,counts⟩
  unfold fillName
  rw [here]
  change (_ >>= _) = _
  rw [count]
  exact run

theorem clusterOther {g h : String} (outside : h ∉ clusterOf shared g) : clusterOf shared h ≠ clusterOf shared g :=
  fun same => outside (same ▸ clusterOwn shared h)

section
variable {g name : String} {after : Tables}

theorem turnedRows (disjoint : Disjoint shared) (shown : Shown base shared seen t) {idx : Int}
    (turned : Turned shared g name idx t after) {h : String} {row : Dict String Int}
    (found : item? after.definitions h = some row) : ∃ extras, keys row = namesOf base h ++ extras ∧
      ∀ n ∈ extras, n ∈ seeing shared seen g [name] (clusterOf shared h) := by
  rw [turned.rows] at found
  by_cases inside : h ∈ clusterOf shared g
  · rw [if_pos inside] at found
    obtain ⟨old,before,rfl⟩ := Option.map_eq_some_iff.mp found
    obtain ⟨extras,split,were⟩ := shown.rows h old before
    rw [fillRowKeys,seeingOwn (clusterSame disjoint inside)]
    rw [clusterSame disjoint inside] at were
    unfold once
    split
    · exact ⟨extras,split,fun n mem => extendMem.mpr (.inl (were n mem))⟩
    · refine ⟨extras ++ [name],by rw [split,List.append_assoc],fun n mem => ?_⟩
      exact extendMem.mpr ((List.mem_append.mp mem).imp (were n) id)
  · rw [if_neg inside] at found
    rw [seeingOther (clusterOther inside)]
    exact shown.rows h row found

theorem turnedCell (disjoint : Disjoint shared) (shown : Shown base shared seen t)
    (turned : Turned shared g name (tally base (lastOf shared g) (seen (clusterOf shared g)) : Int) t after) {h : String}
    (mem : h ∈ keys base) (n : String) :
    indexIn after.definitions h n = cell base shared (seeing shared seen g [name]) h n := by
  have before := shown.cells h mem
  by_cases inside : h ∈ clusterOf shared g
  · have cellAfter : indexIn after.definitions h n = if name = n then
        some (match indexIn t.definitions h name with
          | none => -100
          | some v => if v = -1 then (tally base (lastOf shared g) (seen (clusterOf shared g)) : Int) else v)
        else indexIn t.definitions h n := by
      obtain ⟨row,found⟩ := itemMem.mpr (shown.groups ▸ mem)
      rw [indexIn,turned.rows,if_pos inside,indexIn,indexIn,found]
      exact fillRowItem name _ row n
    rw [cellAfter,before,before,cellTurn (clusterSame disjoint inside) (lastSame disjoint inside)]
  · have kept : indexIn after.definitions h n = indexIn t.definitions h n := by
      rw [indexIn,turned.rows,if_neg inside,indexIn]
    rw [kept,before,cell,cell,seeingOther (clusterOther inside)]

theorem turnedCounter (disjoint : Disjoint shared) (shown : Shown base shared seen t) (own : g ∈ keys base)
    (turned : Turned shared g name (tally base (lastOf shared g) (seen (clusterOf shared g)) : Int) t after) {h : String}
    (mem : h ∈ keys base) (last : lastOf shared h ∈ keys base) : item? after.indices (lastOf shared h) =
      some (tally base (lastOf shared h) (seeing shared seen g [name] (clusterOf shared h)) : Int) := by
  have mine := lastIn shared h
  rw [turned.counts]
  by_cases inside : h ∈ clusterOf shared g
  · rw [lastSame disjoint inside] at last ⊢
    have lastCluster := clusterSame disjoint (lastIn shared g)
    have unset : indexIn t.definitions (lastOf shared g) name = some (-1) ↔
        name ∉ seen (clusterOf shared g) ∧ name ∈ namesOf base (lastOf shared g) := by
      rw [shown.cells _ last,cellUnset,lastCluster]
    rw [seeingOwn (clusterSame disjoint inside)]
    change _ = some ((tally base _ (once (seen (clusterOf shared g)) name) : Nat) : Int)
    rw [tallyOnce]
    by_cases counted : name ∉ seen (clusterOf shared g) ∧ name ∈ namesOf base (lastOf shared g)
    · rw [if_pos counted,if_pos ⟨lastIn shared g,unset.mpr counted⟩]
      push_cast
      rfl
    · rw [if_neg counted,if_neg fun both => counted (unset.mp both.2)]
      exact shown.counters g own last
  · have outside : lastOf shared h ∉ clusterOf shared g := fun within =>
      clusterOther inside ((clusterSame disjoint mine).symm.trans (clusterSame disjoint within))
    rw [if_neg fun both => outside both.1,seeingOther (clusterOther inside)]
    exact shown.counters h mem last

end

theorem fillNameShown (order : SetOrder) (disjoint : Disjoint shared) (shown : Shown base shared seen t) {g : String}
    (own : g ∈ keys base) (complete : ∀ h ∈ clusterOf shared g, h ∈ keys base) (name : String) : ∃ after,
      fillName order shared g t name = .ok after ∧ Shown base shared (seeing shared seen g [name]) after := by
  obtain ⟨after,filled,turned⟩ := fillNameTurned order shown own complete name
  refine ⟨after,filled,turned.groups.trans shown.groups,fun h row found => turnedRows disjoint shown turned found,
    fun h mem n => turnedCell disjoint shown turned mem n,
    fun h mem last => turnedCounter disjoint shown own turned mem last,fun h mem => itemMem.mp ?_⟩
  rw [turned.counts]
  split
  · exact ⟨_,rfl⟩
  · exact itemMem.mpr (shown.known h mem)

theorem seeingNone (g : String) : seeing shared seen g [] = seen := Function.update_eq_self _ _

theorem seeingAppend (g : String) (first second : List String) :
    seeing shared (seeing shared seen g first) g second = seeing shared seen g (first ++ second) := by
  unfold seeing
  rw [Function.update_self,Function.update_idem,extendAppend]

theorem namesShown (order : SetOrder) (disjoint : Disjoint shared) (shown : Shown base shared seen t) {g : String}
    (own : g ∈ keys base) (complete : ∀ h ∈ clusterOf shared g, h ∈ keys base) (ns : List String) : ∃ after,
      ns.foldlM (fillName order shared g) t = .ok after ∧ Shown base shared (seeing shared seen g ns) after := by
  induction ns generalizing seen t with
  | nil => exact ⟨t,rfl,by rwa [seeingNone]⟩
  | cons n ns ih =>
    obtain ⟨next,turn,shown⟩ := fillNameShown order disjoint shown own complete n
    obtain ⟨after,run,shown⟩ := ih shown
    refine ⟨after,?_,?_⟩
    · rw [List.foldlM_cons,turn]
      exact run
    · rwa [seeingAppend] at shown

theorem groupShown (order : SetOrder) (disjoint : Disjoint shared) (shown : Shown base shared seen t) {g : String}
    (own : g ∈ keys base) (complete : ∀ h ∈ clusterOf shared g, h ∈ keys base) : ∃ after,
      fillGroup order shared t g = .ok after ∧ Shown base shared (seeing shared seen g (namesOf base g)) after := by
  obtain ⟨row,here⟩ := itemMem.mpr (shown.groups ▸ own)
  obtain ⟨extras,split,were⟩ := shown.rows g row here
  obtain ⟨after,run,shown⟩ := namesShown order disjoint shown own complete (keys row)
  have same : seeing shared seen g (keys row) = seeing shared seen g (namesOf base g) := by
    unfold seeing
    rw [split,extendAppend,extendKnown fun n mem => extendMem.mpr (.inl (were n mem))]
  refine ⟨after,?_,same ▸ shown⟩
  unfold fillGroup
  rw [here]
  exact run

def seeingAll (base : Definitions) (shared : List (List String)) (seen : List String → List String) (gs : List String) :
    List String → List String := gs.foldl (fun seen g => seeing shared seen g (namesOf base g)) seen

theorem groupsShown (order : SetOrder) (disjoint : Disjoint shared) (shown : Shown base shared seen t) {gs : List String}
    (own : ∀ g ∈ gs, g ∈ keys base) (complete : ∀ g ∈ gs, ∀ h ∈ clusterOf shared g, h ∈ keys base) : ∃ after,
      gs.foldlM (fillGroup order shared) t = .ok after ∧ Shown base shared (seeingAll base shared seen gs) after := by
  induction gs generalizing seen t with
  | nil => exact ⟨t,rfl,shown⟩
  | cons g gs ih =>
    have first : g ∈ g::gs := List.mem_cons_self
    obtain ⟨next,turn,shown⟩ := groupShown order disjoint shown (own g first) (complete g first)
    obtain ⟨after,run,shown⟩ := ih shown (fun h mem => own h (List.mem_cons_of_mem g mem))
      fun h mem => complete h (List.mem_cons_of_mem g mem)
    refine ⟨after,?_,shown⟩
    rw [List.foldlM_cons,turn]
    exact run

theorem seeingTurns (gs cluster : List String) : seeingAll base shared seen gs cluster =
    extend (seen cluster) ((gs.filter fun g => clusterOf shared g = cluster).flatMap (namesOf base)) := by
  induction gs generalizing seen with
  | nil => rfl
  | cons g gs ih =>
    change seeingAll base shared (seeing shared seen g (namesOf base g)) gs cluster = _
    rw [ih]
    by_cases here : clusterOf shared g = cluster
    · rw [List.filter_cons_of_pos (by simpa using here),List.flatMap_cons,extendAppend,← here,seeingOwn rfl]
    · rw [List.filter_cons_of_neg (by simpa using here)]
      exact congrArg (extend · _) (Function.update_of_ne (Ne.symm here) _ _)

theorem assignPresent {name : String} {idx : Int} {hs : List String} {after : Tables}
    (run : hs.foldlM (assign name idx) t = .ok after) : ∀ h ∈ hs, h ∈ keys t.definitions := by
  induction hs generalizing t with
  | nil => exact fun h none => absurd none List.not_mem_nil
  | cons h hs ih =>
    rw [List.foldlM_cons] at run
    by_cases present : h ∈ keys t.definitions
    · obtain ⟨next,step,same,_,_⟩ := assignOne name idx present
      rw [step] at run
      have rest := ih run
      rw [same] at rest
      exact fun k mem => (List.mem_cons.mp mem).elim (fun own => own ▸ present) (rest k)
    · have missing : assign name idx t h = .error .keyError := by rw [assign,itemNone.mpr present]
      rw [missing] at run
      cases run

theorem turnComplete {order : SetOrder} {found : List (String × String)} (based : Based found base)
    (shown : Shown base shared seen t) {g : String} {next : Tables} (turn : fillGroup order shared t g = .ok next) :
    ∀ h ∈ clusterOf shared g, h ∈ keys base := by
  unfold fillGroup at turn
  cases here : item? t.definitions g with
  | none => rw [here] at turn; cases turn
  | some row =>
    rw [here] at turn
    obtain ⟨extras,split,_⟩ := shown.rows g row here
    obtain ⟨first,old⟩ := itemMem.mpr (shown.groups ▸ itemMem.mp ⟨row,here⟩)
    obtain ⟨_,⟨n,mem⟩,_⟩ := based.rows g first old
    obtain ⟨m,ms,names⟩ := List.exists_cons_of_ne_nil (List.ne_nil_of_mem mem)
    change (keys row).foldlM _ t = _ at turn
    rw [split,namesRow old,names] at turn
    change (fillName order shared g t m >>= _) = _ at turn
    cases named : fillName order shared g t m with
    | error e => rw [named] at turn; cases turn
    | ok after =>
      unfold fillName at named
      cases counter : item? t.indices g with
      | none => rw [counter] at named; cases named
      | some idx =>
        rw [counter] at named
        change (_ >>= _) = _ at named
        cases count : (((shared.find? fun cluster => g ∈ cluster).getD []).foldlM
          (fun _ group => indexOf t.indices group) idx : Except PyError Int) with
        | error e => rw [count] at named; cases named
        | ok idx =>
          rw [count] at named
          have present := assignPresent named
          intro h inside
          rw [← shown.groups]
          exact present h ((membersOf order shared g h).mpr inside)

theorem turnsComplete {order : SetOrder} {found : List (String × String)} (based : Based found base)
    (disjoint : Disjoint shared) (shown : Shown base shared seen t) {gs : List String} (own : ∀ g ∈ gs, g ∈ keys base)
    {after : Tables} (run : gs.foldlM (fillGroup order shared) t = .ok after) :
    ∀ g ∈ gs, ∀ h ∈ clusterOf shared g, h ∈ keys base := by
  induction gs generalizing seen t with
  | nil => exact fun g none => absurd none List.not_mem_nil
  | cons g gs ih =>
    rw [List.foldlM_cons] at run
    cases turn : fillGroup order shared t g with
    | error e => rw [turn] at run; cases run
    | ok next =>
      rw [turn] at run
      have complete := turnComplete based shown turn
      obtain ⟨same,again,shown⟩ := groupShown order disjoint shown (own g List.mem_cons_self) complete
      rw [turn] at again
      cases again
      have rest := ih shown (fun h mem => own h (List.mem_cons_of_mem g mem)) run
      exact fun h mem => (List.mem_cons.mp mem).elim (fun first => first ▸ complete) (rest h)

end

theorem zeroed (symbols : List String) (d : Dict String Int) (g : String) :
    item? (symbols.foldl (fun indices symbol => setItem indices symbol 0) d) g =
      if g ∈ symbols then some 0 else item? d g := by
  induction symbols generalizing d with
  | nil => exact (if_neg List.not_mem_nil).symm
  | cons symbol symbols ih =>
    rw [List.foldl_cons,ih,itemSet]
    by_cases later : g ∈ symbols
    · rw [if_pos later,if_pos (List.mem_cons_of_mem _ later)]
    · rw [if_neg later]
      by_cases here : symbol = g
      · rw [if_pos here,if_pos (here ▸ List.mem_cons_self)]
      · rw [if_neg here,if_neg (List.not_mem_cons_of_ne_of_not_mem (Ne.symm here) later)]

theorem ownKeys {found : List (String × String)} {base : Definitions} (based : Based found base) {g : String} :
    g ∈ keys base ↔ ∃ n, (g,n) ∈ found := by
  rw [← itemMem]
  constructor
  · rintro ⟨row,here⟩
    obtain ⟨_,⟨n,mem⟩,_⟩ := based.rows g row here
    exact ⟨n,(based.mem g n).mp (namesRow here ▸ mem)⟩
  · rintro ⟨n,pair⟩
    have mem := (based.mem g n).mpr pair
    unfold namesOf at mem
    cases here : item? base g with
    | none => rw [here] at mem; cases mem
    | some row => exact ⟨row,rfl⟩

theorem shownFirst {found : List (String × String)} {base : Definitions} (based : Based found base)
    (shared : List (List String)) (symbols : Dict String Nat) (known : ∀ g ∈ keys base, g ∈ keys symbols) :
    Shown base shared (fun _ => []) ⟨base,(keys symbols).foldl (fun indices symbol => setItem indices symbol 0) []⟩ := by
  refine ⟨rfl,fun g row here => ⟨[],?_,fun n none => absurd none List.not_mem_nil⟩,fun g own n => ?_,fun g _ last => ?_,
    fun g own => ?_⟩
  · rw [List.append_nil,namesRow here]
  · obtain ⟨row,here⟩ := itemMem.mpr own
    unfold cell
    rw [if_neg List.not_mem_nil,namesRow here,indexIn,here,Option.bind_some]
    by_cases mem : n ∈ keys row
    · rw [if_pos mem]
      exact (based.rows g row here).2.2 n mem
    · rw [if_neg mem]
      exact itemNone.mpr mem
  · rw [zeroed,if_pos (known _ last)]
    rfl
  · refine itemMem.mp ?_
    rw [zeroed,if_pos (known g own)]
    exact ⟨0,rfl⟩

theorem twoOf {l : List String} {n m : String} (left : n ∈ l) (right : m ∈ l) (differ : n ≠ m) :
    (∃ a b c, l = a ++ n::(b ++ m::c)) ∨ ∃ a b c, l = a ++ m::(b ++ n::c) := by
  obtain ⟨a,r,rfl⟩ := List.append_of_mem left
  rcases List.mem_append.mp right with before | after
  · obtain ⟨s,b,rfl⟩ := List.append_of_mem before
    exact .inr ⟨s,b,r,by simp⟩
  · obtain ⟨b,c,rfl⟩ := List.append_of_mem ((List.mem_cons.mp after).resolve_left (Ne.symm differ))
    exact .inl ⟨a,b,c,rfl⟩

theorem ranksApart (base : Definitions) (last : String) {l a b c : List String} {n m : String} (nodup : l.Nodup)
    (split : l = a ++ n::(b ++ m::c)) :
    rank base last l n ≠ rank base last l m ↔ ∃ x ∈ n::b, x ∈ namesOf base last := by
  subst split
  have regroup : a ++ n::(b ++ m::c) = (a ++ n::b) ++ m::c := by simp
  have freshFirst : n ∉ a := fun mem => (List.nodup_append.mp nodup).2.2 n mem n List.mem_cons_self rfl
  have freshSecond : m ∉ a ++ n::b := fun mem => by
    rw [regroup] at nodup
    exact (List.nodup_append.mp nodup).2.2 m mem m List.mem_cons_self rfl
  have first : rank base last (a ++ n::(b ++ m::c)) n = tally base last a := by
    rw [rank,takeNew freshFirst,tally]
  have second : rank base last (a ++ n::(b ++ m::c)) m = tally base last a + tally base last (n::b) := by
    rw [regroup,rank,takeNew freshSecond,List.filter_append,List.length_append,tally,tally]
  have counted : tally base last (n::b) ≠ 0 ↔ ∃ x ∈ n::b, x ∈ namesOf base last := by
    rw [tally,ne_eq,List.length_eq_zero_iff,List.filter_eq_nil_iff]
    simp [or_iff_not_imp_left]
  rw [first,second,← counted]
  omega

theorem lastCluster {shared : List (List String)} (disjoint : Disjoint shared) {cluster : List String}
    (mem : cluster ∈ shared) {g : String} (inside : g ∈ cluster) : cluster.getLast? = some (lastOf shared g) := by
  unfold lastOf
  rw [clusterIn disjoint mem inside]
  cases last : cluster.getLast? with
  | none => rw [List.getLast?_eq_none_iff.mp last] at inside; cases inside
  | some l => rfl

def numbered (found : List (String × String)) (shared : List (List String)) (g : String) : List String :=
  seeingAll (enumerateSourceFiles found) shared (fun _ => []) (keys (enumerateSourceFiles found)) (clusterOf shared g)

theorem numberedNodup (found : List (String × String)) (shared : List (List String)) (g : String) :
    (numbered found shared g).Nodup := by
  rw [numbered,seeingTurns]
  exact extendNodup List.nodup_nil _

theorem numberedOwn {found : List (String × String)} (shared : List (List String)) {g n : String} (pair : (g,n) ∈ found) :
    n ∈ numbered found shared g := by
  have based := enumerated found
  rw [numbered,seeingTurns,extendMem]
  refine .inr (List.mem_flatMap.mpr ⟨g,List.mem_filter.mpr ⟨(ownKeys based).mpr ⟨n,pair⟩,by simp⟩,?_⟩)
  exact (based.mem g n).mpr pair

theorem numberedTurns {found : List (String × String)} {shared : List (List String)} (disjoint : Disjoint shared)
    {cluster : List String} (mem : cluster ∈ shared) {g : String} (inside : g ∈ cluster) :
    numbered found shared g = turns (enumerateSourceFiles found) cluster := by
  rw [numbered,seeingTurns,turns,clusterIn disjoint mem inside]
  congr 2
  refine List.filter_congr fun h _ => decide_eq_decide.mpr ⟨fun same => same ▸ clusterOwn shared h,?_⟩
  exact fun within => clusterIn disjoint mem within

theorem numberedIndices {found : List (String × String)} {shared : List (List String)} {t : Tables}
    (shown : Shown (enumerateSourceFiles found) shared (seeingAll (enumerateSourceFiles found) shared (fun _ => [])
      (keys (enumerateSourceFiles found))) t) {g n : String} (pair : (g,n) ∈ found) : indexIn t.definitions g n =
      some (rank (enumerateSourceFiles found) (lastOf shared g) (numbered found shared g) n : Int) := by
  have based := enumerated found
  have seen := numberedOwn shared pair
  unfold numbered at seen ⊢
  rw [shown.cells g ((ownKeys based).mpr ⟨n,pair⟩),cell,if_pos seen,if_pos ((based.mem g n).mpr pair)]

theorem completeIff {found : List (String × String)} {shared : List (List String)} (disjoint : Disjoint shared) :
    Complete found shared ↔ ∀ g ∈ keys (enumerateSourceFiles found), ∀ h ∈ clusterOf shared g,
      h ∈ keys (enumerateSourceFiles found) := by
  have based := enumerated found
  constructor
  · intro complete g own h inside
    obtain ⟨n,pair⟩ := (ownKeys based).mp own
    unfold clusterOf at inside
    cases here : shared.find? fun cluster => g ∈ cluster with
    | none =>
      rw [here] at inside
      exact List.mem_singleton.mp inside ▸ own
    | some cluster =>
      rw [here] at inside
      have within : g ∈ cluster := by simpa using List.find?_some here
      obtain ⟨p,driver,rfl⟩ := complete cluster (List.mem_of_find?_eq_some here) ⟨_,pair,within⟩ h inside
      exact (ownKeys based).mpr ⟨p.2,driver⟩
  · rintro present cluster mem ⟨p,pair,within⟩ h inside
    have member := present p.1 ((ownKeys based).mpr ⟨p.2,pair⟩) h (by rwa [clusterIn disjoint mem within])
    obtain ⟨n,driver⟩ := (ownKeys based).mp member
    exact ⟨_,driver,rfl⟩

theorem rankedApart {found : List (String × String)} {shared : List (List String)} (disjoint : Disjoint shared)
    (separated : Separated found shared) {g n m : String} (left : (g,n) ∈ found) (right : (g,m) ∈ found) {a b c : List String}
    (split : numbered found shared g = a ++ n::(b ++ m::c)) :
    rank (enumerateSourceFiles found) (lastOf shared g) (numbered found shared g) n ≠
      rank (enumerateSourceFiles found) (lastOf shared g) (numbered found shared g) m := by
  have based := enumerated found
  refine (ranksApart _ _ (numberedNodup found shared g) split).mpr ?_
  cases here : shared.find? fun cluster => g ∈ cluster with
  | none =>
    -- a group alone counts every name of its own
    have alone : lastOf shared g = g := by
      unfold lastOf clusterOf
      rw [here]
      rfl
    refine ⟨n,List.mem_cons_self,?_⟩
    rw [alone]
    exact (based.mem g n).mpr left
  | some cluster =>
    have mem := List.mem_of_find?_eq_some here
    have inside : g ∈ cluster := by simpa using List.find?_some here
    rw [numberedTurns disjoint mem inside] at split
    obtain ⟨x,between,last,isLast,driver⟩ := separated cluster mem g inside n m a b c left right split
    rw [lastCluster disjoint mem inside] at isLast
    cases isLast
    exact ⟨x,between,(based.mem _ x).mpr driver⟩

/-- The numbering succeeds and is as its users need it exactly when every group of a cluster
in use has a driver and the cluster's last group has names enough to tell the others apart. -/
theorem indexedIff (order : SetOrder) {found : List (String × String)} {shared : List (List String)}
    {symbols : Dict String Nat} (known : ∀ p ∈ found, p.1 ∈ keys symbols) (disjoint : Disjoint shared) :
    (∃ result, fillInIndices order shared (enumerateSourceFiles found) symbols = .ok result ∧ Indexed found shared result) ↔
      Complete found shared ∧ Separated found shared := by
  have based := enumerated found
  have first := shownFirst based shared symbols fun g own => by
    obtain ⟨n,pair⟩ := (ownKeys based).mp own
    exact known _ pair
  rw [completeIff disjoint]
  constructor
  · rintro ⟨result,run,indexed⟩
    unfold fillInIndices at run
    change (_ >>= _) = _ at run
    cases turned : (keys (enumerateSourceFiles found)).foldlM (fillGroup order shared)
      ⟨enumerateSourceFiles found,(keys symbols).foldl (fun indices symbol => setItem indices symbol 0) []⟩ with
    | error e => rw [turned] at run; cases run
    | ok t =>
      rw [turned] at run
      cases run
      have complete := turnsComplete based disjoint first (fun g own => own) turned
      obtain ⟨after,again,shown⟩ := groupsShown order disjoint first (fun g own => own) complete
      rw [turned] at again
      cases again
      refine ⟨complete,fun cluster mem g inside n m a b c left right split => ?_⟩
      rw [← numberedTurns disjoint mem inside] at split
      have nodup := numberedNodup found shared g
      have differ : n ≠ m := by
        rintro rfl
        rw [split] at nodup
        exact (List.nodup_cons.mp (List.nodup_append.mp nodup).2.1).1 (by simp)
      have apart := indexed.apart g n m left right differ
      rw [numberedIndices shown left,numberedIndices shown right] at apart
      obtain ⟨x,between,counted⟩ := (ranksApart _ _ nodup split).mp fun same => apart (by rw [same])
      exact ⟨x,between,_,lastCluster disjoint mem inside,(based.mem _ x).mp counted⟩
  · rintro ⟨complete,separated⟩
    obtain ⟨t,turned,shown⟩ := groupsShown order disjoint first (fun g own => own) complete
    have index {g n : String} (pair : (g,n) ∈ found) := numberedIndices shown pair
    refine ⟨t.definitions,?_,fun p pair => ⟨_,Int.natCast_nonneg _,index pair⟩,fun g n m left right differ => ?_,
      fun cluster mem g here h there n left right => ?_⟩
    · unfold fillInIndices
      change (_ >>= _) = _
      rw [turned]
      rfl
    · rw [index left,index right]
      intro same
      have ranks := Int.ofNat_inj.mp (Option.some.inj same)
      rcases twoOf (numberedOwn shared left) (numberedOwn shared right) differ with ⟨a,b,c,split⟩ | ⟨a,b,c,split⟩
      · exact rankedApart disjoint separated left right split ranks
      · exact rankedApart disjoint separated right left split ranks.symm
    · have same : clusterOf shared h = clusterOf shared g :=
        (clusterIn disjoint mem there).trans (clusterIn disjoint mem here).symm
      have lasts : lastOf shared h = lastOf shared g := lastSame disjoint (same ▸ clusterOwn shared h)
      rw [index left,index right,lasts]
      unfold numbered
      rw [same]

def files : List (String × String) := [("SUPER","ext2"),("FILE","ext2"),("FILE","buffer")]

def strangers : List (String × String) := [("SUPER","ext2"),("SUPER","initramfs"),("FILE","buffer")]

def groups : Dict String Nat := [("SUPER",0),("FILE",1)]

def anyOrder : SetOrder := ⟨List.dedup,List.nodup_dedup,fun _ _ => List.mem_dedup⟩

theorem filesIndexed : ∃ result, fillInIndices anyOrder [["SUPER","FILE"]] (enumerateSourceFiles files) groups = .ok result ∧
    Indexed files [["SUPER","FILE"]] result := by
  refine (indexedIff anyOrder ?_ (List.pairwise_singleton _ _)).mpr ⟨?_,?_⟩
  · simp [files,groups,keys]
  · intro cluster mem _ h inside
    cases List.mem_singleton.mp mem
    simp [files] at inside ⊢
    exact inside.imp Eq.symm Eq.symm
  · intro cluster mem g _ n m a b c left _ _
    cases List.mem_singleton.mp mem
    refine ⟨n,List.mem_cons_self,"FILE",rfl,?_⟩
    simp [files] at left ⊢
    rcases left with ⟨_,same⟩ | ⟨_,same⟩ | ⟨_,same⟩ <;> simp [same]

theorem strangersAlike : ¬ ∃ result,
    fillInIndices anyOrder [["SUPER","FILE"]] (enumerateSourceFiles strangers) groups = .ok result ∧
      Indexed strangers [["SUPER","FILE"]] result := by
  rintro ⟨result,run,indexed⟩
  have here : fillInIndices anyOrder [["SUPER","FILE"]] (enumerateSourceFiles strangers) groups =
      .ok [("SUPER",[("ext2",0),("initramfs",0),("buffer",-100)]),
        ("FILE",[("buffer",0),("ext2",-100),("initramfs",-100)])] := by
    decide
  rw [here] at run
  cases run
  exact indexed.apart "SUPER" "ext2" "initramfs" (by simp [strangers]) (by simp [strangers]) (by simp) rfl

example : fillInIndices anyOrder [["SUPER","FILE"]] (enumerateSourceFiles [("SUPER","ext2")]) groups =
    .error .keyError := by decide

end Kdrivers.DriverIndices
