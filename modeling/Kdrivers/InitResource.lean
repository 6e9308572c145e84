import Mathlib.Algebra.Group.Nat.Defs
import Kdrivers.DriverTables

/-! Resources (resource.c): the driver that a group and an index select in the generated
tables, and its start. -/
namespace Kdrivers.InitResource
open PyDict
open DriverIndices (Definitions indexIn)
open DriverTables

structure Resource where
  driver : String
  driverState : Nat
  id : Nat
  driIndex : Int
  driGroup : Int
  deriving DecidableEq, Repr

structure Env (σ : Type) where
  alloc : σ → Bool × σ
  free : σ → σ
  init : String → Option (Resource → Nat → σ → Int × Resource × σ)

structure State (σ : Type) where
  currentId : Nat
  world : σ

section
variable [Unicode] {σ : Type} (env : Env σ)

def startDriver (def_ : Option String) (driGroup driIndex : Int) (args : Nat) (s : State σ) :
    Option Resource × State σ := match def_ with
  | none => (none,s)
  | some def_ => match env.init def_ with
    | none => (none,s)
    | some init => match env.alloc s.world with
      | (false,world) => (none,{ s with world := world })
      | (true,world) =>
        let currentId := (s.currentId + 1) % 2^64
        match init ⟨def_,0,s.currentId,driIndex,driGroup⟩ args world with
        | (0,resource,world) => (some resource,⟨currentId,world⟩)
        | (_,_,world) => (none,⟨currentId,env.free world⟩)

def initResource (header : Header) (source : Source) (driGroup driIndex : Int) (args : Nat) (s : State σ) :
    Outcome (Option Resource × State σ) :=
  let entryCount := source.dridefsGetEntryCount driGroup
  if driGroup < 0 ∨ driIndex < 0 ∨ driGroup ≥ header.driverGroups ∨ driIndex ≥ entryCount then .ret (none,s)
  else do
    let def_ ← source.arcDrisTable driGroup.toNat driIndex.toNat
    .ret (startDriver env def_ driGroup driIndex args s)

structure Agrees (symbols : Dict String Nat) (registered : String → String → Int → Prop) (header : Header)
    (source : Source) : Prop where
  compiles : Compiles header source
  entries : ∀ g n i v, registered g n i → item? symbols g = some v →
    source.arcDrisTable v i.toNat = .ret (some (driverObject g n))
  defines : ∀ g n i, registered g n i → macro? header (macroName g n) = some (.number i)
  counts : ∀ g v, item? symbols g = some v →
    (∀ n i, registered g n i → i < source.dridefsGetEntryCount v) ∧
      (source.dridefsGetEntryCount v = 0 ∨ ∃ n, registered g n (source.dridefsGetEntryCount v - 1))
  starts : ∀ (σ : Type) (env : Env σ) g n i v args s, registered g n i → item? symbols g = some v →
    initResource env header source v i args s = .ret (startDriver env (some (driverObject g n)) v i args s)
  missing : ∀ (σ : Type) (env : Env σ) group index args s,
    (∀ g n v, item? symbols g = some v → (v : Int) = group → ¬ registered g n index) →
      initResource env header source group index args s = .ret (none,s)

end

def Within (symbols : Dict String Nat) (registered : String → String → Int → Prop) : Prop :=
  ∀ g n i v, registered g n i → item? symbols g = some v → v < symbols.length

section
variable {enum : Enumeration} {definitions : Definitions} {source : Source}

theorem rowIn (whole : ∀ g ∈ keys enum.symbols, g ∈ keys definitions) {g : String} {v : Nat}
    (value : item? enum.symbols g = some v) : ∃ row, item? definitions g = some row :=
  itemMem.mpr (whole g (itemMem.mp ⟨v,value⟩))

variable [Unicode]

theorem countRow (made : constructDriDefsSource definitions enum.symbols = some source) {g : String} {v : Nat}
    (value : item? enum.symbols g = some v) {row : Dict String Int} (here : item? definitions g = some row) :
    source.dridefsGetEntryCount v = if enum.symbols.length ≤ v then 0 else rowSize row := by
  rw [entryCount made value,here]
  rfl

theorem resourceAt (made : constructDriDefsSource definitions enum.symbols = some source)
    (length : definitions.length = enum.symbols.length) {σ : Type} (env : Env σ) {g : String} {v : Nat}
    (value : item? enum.symbols g = some v) (below : v < enum.symbols.length) {row : Dict String Int}
    (here : item? definitions g = some row) {i : Nat} (inside : (i : Int) < rowSize row) {def_ : Option String}
    (entry : source.arcDrisTable v i = .ret def_) (args : Nat) (s : State σ) :
    initResource env (constructDriDefsHeader definitions) source v i args s = .ret (startDriver env def_ v i args s) := by
  have count := countRow made value here
  rw [if_neg (by omega)] at count
  have groups : (constructDriDefsHeader definitions).driverGroups = enum.symbols.length := length
  unfold initResource
  rw [count,groups,if_neg (by omega),Int.toNat_natCast,Int.toNat_natCast,entry]
  rfl

variable (assigned : Assigned enum.symbols definitions) (whole : ∀ g ∈ keys enum.symbols, g ∈ keys definitions)
  (made : constructDriDefsSource definitions enum.symbols = some source)
include assigned whole made

theorem withinAgrees (apart : NamesApart enum.symbols (Registered definitions))
    (within : Within enum.symbols (Registered definitions)) :
    Agrees enum.symbols (Registered definitions) (constructDriDefsHeader definitions) source := by
  have length := wholeLength assigned whole
  have compiles := (compilesIff assigned whole made).mpr apart
  have objects := (List.nodup_cons.mp compiles.objects).2
  have entry {g n : String} {v i : Nat} (driver : Registered definitions g n i) (value : item? enum.symbols g = some v) :
      source.arcDrisTable v i = .ret (some (driverObject g n)) := by
    obtain ⟨row,here⟩ := rowIn whole value
    rw [tableAt made objects value here,(groupAt assigned here i).1 n driver]
  refine ⟨compiles,fun g n i v driver value => ?_,fun g n i driver => ?_,fun g v value => ?_,
    fun σ env g n i v args s driver value => ?_,fun σ env group index args s none => ?_⟩
  · obtain ⟨i,rfl⟩ := Int.eq_ofNat_of_zero_le driver.1
    exact entry driver value
  · have mem := (macroMem assigned).mpr (.inr (.inr ⟨g,n,i,driver,rfl⟩))
    obtain ⟨r,here⟩ := itemMem.mpr (List.mem_map.mpr ⟨_,mem,rfl⟩)
    exact here.trans (congrArg some (compiles.macros _ (itemIn here) _ mem rfl))
  · obtain ⟨row,here⟩ := rowIn whole value
    rw [countRow made value here]
    split
    · exact ⟨fun n i driver => absurd (within g n i v driver value) (by omega),.inl rfl⟩
    · exact (rowSizeSpec assigned here).2
  · obtain ⟨i,rfl⟩ := Int.eq_ofNat_of_zero_le driver.1
    obtain ⟨row,here⟩ := rowIn whole value
    have inside := (rowSizeSpec assigned here).2.1 n i driver
    exact resourceAt made length env value (within g n i v driver value) here inside (entry driver value) args s
  · by_cases guarded : group < 0 ∨ index < 0 ∨ group ≥ (constructDriDefsHeader definitions).driverGroups ∨
        index ≥ source.dridefsGetEntryCount group
    · exact if_pos guarded
    · have open_ := not_or.mp guarded
      obtain ⟨v,rfl⟩ := Int.eq_ofNat_of_zero_le (Int.not_lt.mp open_.1)
      obtain ⟨i,rfl⟩ := Int.eq_ofNat_of_zero_le (Int.not_lt.mp (not_or.mp open_.2).1)
      have counted : (i : Int) < source.dridefsGetEntryCount v := by omega
      by_cases known : ∃ g, item? enum.symbols g = some v
      · obtain ⟨g,value⟩ := known
        obtain ⟨row,here⟩ := rowIn whole value
        rw [countRow made value here] at counted
        split at counted
        · omega
        · have blank := (groupAt assigned here i).2 (fun n => none g n v value rfl) counted
          have entry := tableAt made objects value here i
          rw [blank] at entry
          exact resourceAt made length env value (by omega) here counted entry args s
      · have other : ∀ g w, item? enum.symbols g = some w → (w : Int) ≠ v := fun g w value same =>
          known ⟨g,value.trans (congrArg some (Int.ofNat_inj.mp same))⟩
        rw [entryCountNone made other] at counted
        omega

theorem agreesWithin (agrees : Agrees enum.symbols (Registered definitions) (constructDriDefsHeader definitions) source) :
    NamesApart enum.symbols (Registered definitions) ∧ Within enum.symbols (Registered definitions) := by
  refine ⟨(compilesIff assigned whole made).mp agrees.compiles,fun g n i v driver value => ?_⟩
  obtain ⟨row,here⟩ := rowIn whole value
  have counted := (agrees.counts g v value).1 n i driver
  have nonneg := driver.1
  rw [countRow made value here] at counted
  split at counted <;> omega

end

/-- The generated files and init_resource agree on every driver exactly when the generated names
are apart and each group that has drivers is below the number of groups. -/
theorem agreesIff [Unicode] (enum : Enumeration) {definitions : Definitions} (assigned : Assigned enum.symbols definitions) :
    (∃ source, constructDriDefsSource (patchDefinitions definitions enum.symbols) enum.symbols = some source ∧
      Agrees enum.symbols (Registered definitions)
        (constructDriDefsHeader (patchDefinitions definitions enum.symbols)) source) ↔
      NamesApart enum.symbols (Registered definitions) ∧ Within enum.symbols (Registered definitions) := by
  have patched := patchedAssigned assigned
  have whole : ∀ g ∈ keys enum.symbols, g ∈ keys (patchDefinitions definitions enum.symbols) :=
    fun g known => (patchedKeys assigned g).mpr known
  rw [← patchedRegistered assigned]
  constructor
  · rintro ⟨source,made,agrees⟩
    exact agreesWithin patched whole made agrees
  · rintro ⟨apart,within⟩
    obtain ⟨_,_,made⟩ := constructed enum (patchDefinitions definitions enum.symbols)
    exact ⟨_,made,withinAgrees patched whole made apart within⟩

theorem registeredIn {definitions : Definitions} {g n : String} {i : Int} (driver : Registered definitions g n i) :
    ∃ row, (g,row) ∈ definitions ∧ (n,i) ∈ row := by
  obtain ⟨row,here,item⟩ := Option.bind_eq_some_iff.mp driver.2
  exact ⟨row,itemIn here,itemIn item⟩

def files : Enumeration :=
  ⟨[("ARC_DRIGRP_FS_SUPER",some 0),("ARC_DRIGRP_FS_FILE",none)],by simp,by simp,by decide⟩

def fileDrivers : Definitions :=
  [("ARC_DRIGRP_FS_FILE",[("ext2",0),("buffer",1)]),("ARC_DRIGRP_FS_SUPER",[("ext2",0),("buffer",-100)])]

def spread : Enumeration :=
  ⟨[("ARC_DRIGRP_FS_SUPER",none),("ARC_DRIGRP_DEV",some 2)],by simp,by simp,by decide⟩

def spreadDrivers : Definitions := [("ARC_DRIGRP_DEV",[("nvme",0)])]

theorem fileRegistered {g n : String} {i : Int} (driver : Registered fileDrivers g n i) :
    (g = "ARC_DRIGRP_FS_FILE" ∧ n = "ext2" ∧ i = 0) ∨ (g = "ARC_DRIGRP_FS_FILE" ∧ n = "buffer" ∧ i = 1) ∨
      (g = "ARC_DRIGRP_FS_SUPER" ∧ n = "ext2" ∧ i = 0) := by
  obtain ⟨row,group,item⟩ := registeredIn driver
  have nonneg := driver.1
  simp only [fileDrivers,List.mem_cons,Prod.mk.injEq,List.not_mem_nil,or_false] at group
  rcases group with ⟨rfl,rfl⟩ | ⟨rfl,rfl⟩
  · simp only [List.mem_cons,Prod.mk.injEq,List.not_mem_nil,or_false] at item
    rcases item with ⟨rfl,rfl⟩ | ⟨rfl,rfl⟩ <;> simp
  · simp only [List.mem_cons,Prod.mk.injEq,List.not_mem_nil,or_false] at item
    rcases item with ⟨rfl,rfl⟩ | ⟨rfl,rfl⟩
    · simp
    · omega

theorem fileAssigned : Assigned files.symbols fileDrivers := by
  refine ⟨by decide,by decide,fun g row here => ?_,fun g row here _ => ?_,fun g n m i left right => ?_⟩
  · have mem := itemIn here
    simp only [fileDrivers,List.mem_cons,Prod.mk.injEq,List.not_mem_nil,or_false] at mem
    rcases mem with ⟨rfl,rfl⟩ | ⟨rfl,rfl⟩ <;> decide
  · have mem := itemIn here
    simp only [fileDrivers,List.mem_cons,Prod.mk.injEq,List.not_mem_nil,or_false] at mem
    rcases mem with ⟨rfl,rfl⟩ | ⟨rfl,rfl⟩ <;> exact ⟨"ext2",0,Int.le_refl 0,rfl⟩
  · rcases fileRegistered left with ⟨rfl,rfl,rfl⟩ | ⟨rfl,rfl,rfl⟩ | ⟨rfl,rfl,rfl⟩ <;>
      rcases fileRegistered right with ⟨one,rfl,two⟩ | ⟨one,rfl,two⟩ | ⟨one,rfl,two⟩ <;> simp_all

section

local instance ascii : Unicode := ⟨id,id⟩

theorem filesAgree : ∃ source, constructDriDefsSource (patchDefinitions fileDrivers files.symbols) files.symbols = some source ∧
    Agrees files.symbols (Registered fileDrivers)
      (constructDriDefsHeader (patchDefinitions fileDrivers files.symbols)) source := by
  refine (agreesIff files fileAssigned).mpr ⟨⟨by decide,fun g n i h m j left right same => ?_,
    fun g n i h m j left right same => ?_,fun g n i driver same => ?_,fun g n i driver same => ?_⟩,
    fun g n i v driver value => ?_⟩
  · rcases fileRegistered left with ⟨rfl,rfl,rfl⟩ | ⟨rfl,rfl,rfl⟩ | ⟨rfl,rfl,rfl⟩ <;>
      rcases fileRegistered right with ⟨rfl,rfl,rfl⟩ | ⟨rfl,rfl,rfl⟩ | ⟨rfl,rfl,rfl⟩ <;> revert same <;> decide
  · rcases fileRegistered left with ⟨rfl,rfl,rfl⟩ | ⟨rfl,rfl,rfl⟩ | ⟨rfl,rfl,rfl⟩ <;>
      rcases fileRegistered right with ⟨rfl,rfl,rfl⟩ | ⟨rfl,rfl,rfl⟩ | ⟨rfl,rfl,rfl⟩ <;> revert same <;> decide
  · rcases fileRegistered driver with ⟨rfl,rfl,rfl⟩ | ⟨rfl,rfl,rfl⟩ | ⟨rfl,rfl,rfl⟩ <;> revert same <;> decide
  · rcases fileRegistered driver with ⟨rfl,rfl,rfl⟩ | ⟨rfl,rfl,rfl⟩ | ⟨rfl,rfl,rfl⟩ <;> revert same <;> decide
  · have mem : (g,v) ∈ [("ARC_DRIGRP_FS_SUPER",0),("ARC_DRIGRP_FS_FILE",1)] := itemIn value
    simp only [List.mem_cons,Prod.mk.injEq,List.not_mem_nil,or_false] at mem
    rcases mem with ⟨_,rfl⟩ | ⟨_,rfl⟩ <;> decide

theorem spreadDisagree : Assigned spread.symbols spreadDrivers ∧ ¬ ∃ source,
    constructDriDefsSource (patchDefinitions spreadDrivers spread.symbols) spread.symbols = some source ∧
      Agrees spread.symbols (Registered spreadDrivers)
        (constructDriDefsHeader (patchDefinitions spreadDrivers spread.symbols)) source := by
  have driver : Registered spreadDrivers "ARC_DRIGRP_DEV" "nvme" 0 := ⟨Int.le_refl 0,by decide⟩
  constructor
  · refine ⟨by decide,by decide,fun g row here => ?_,fun g row here _ => ?_,fun g n m i left right => ?_⟩
    · cases List.mem_singleton.mp (itemIn here)
      decide
    · cases List.mem_singleton.mp (itemIn here)
      exact ⟨_,_,driver⟩
    · obtain ⟨_,group,item⟩ := registeredIn left
      obtain ⟨_,again,other⟩ := registeredIn right
      cases List.mem_singleton.mp group
      cases List.mem_singleton.mp again
      cases List.mem_singleton.mp item
      cases List.mem_singleton.mp other
      rfl
  · rintro ⟨source,made,agrees⟩
    have value : item? spread.symbols "ARC_DRIGRP_DEV" = some 2 := by decide
    have counted := (agrees.counts _ _ value).1 _ _ driver
    rw [entryCount made value,if_pos (by decide)] at counted
    exact absurd counted (by decide)

end

end Kdrivers.InitResource
