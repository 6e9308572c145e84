import Kdrivers.Bytes
import Kdrivers.InitResource

/-! The driver of a device by its code (resource.c): the search through the code lists of a
group's drivers, and the start of the driver found. -/
namespace Kdrivers.FindCode
open Bytes DriverTables InitResource

def codesTerminator : BitVec 64 := -1

structure Codes where
  list : List (BitVec 64)
  plain : ∀ c ∈ list, c ≠ codesTerminator

-- def->codes[code]; what lies past the terminator is not the list's
def Codes.at (codes : Codes) (code : Nat) : Outcome (BitVec 64) := match codes.list[code]? with
  | some entry => .ret entry
  | none => if code = codes.list.length then .ret codesTerminator else .fault .tableIndex

/- The inner loop; code holds 32 bits. -/
def codeLoop (codes : Codes) (target : BitVec 64) : Nat → Nat → Outcome Bool
  | 0,_ => .running
  | fuel+1,code => do
    let entry ← codes.at code
    if entry = codesTerminator then .ret false
    else if entry = target then .ret true
    else codeLoop codes target fuel ((code + 1) % 2^32)

-- a size_t returned as an int
def toInt (i : Nat) : Int := (BitVec.ofNat 32 i).toInt

section
variable (codes : String → Option Codes) (source : Source)

/- The loop over the entries of a group from i on. codes gives what the codes fields point to. -/
def entryLoop (target : BitVec 64) (group : Int) (fuel : Nat) : Nat → Nat → Outcome Int
  | 0,_ => .ret (-1)
  | n+1,i => do
    let def_ ← source.arcDrisTable group.toNat i
    match def_.bind codes with
    | none => entryLoop target group fuel n (i + 1)
    | some list =>
      if ← codeLoop list target fuel 0 then .ret (toInt i) else entryLoop target group fuel n (i + 1)

def internalFindCode (target : BitVec 64) (group : Int) (fuel : Nat) : Outcome Int :=
  entryLoop codes source target group fuel (source.dridefsGetEntryCount group).toNat 0

def driGrpDevAcpi : Int := 3
def driGrpDevPci : Int := 4

-- put together in an int, kept in 32 bits
def pciTarget (vendor device : BitVec 16) : BitVec 64 :=
  (vendor.setWidth 32 <<< 16 ||| device.setWidth 32).setWidth 64

variable {σ : Type} (env : Env σ) (header : Header)

def initPciResource (vendor device : BitVec 16) (args : Nat) (fuel : Nat) (s : State σ) :
    Outcome (Option Resource × State σ) :=
  if vendor = 0xFFFF ∧ device = 0xFFFF then .ret (none,s)
  else do
    let index ← internalFindCode codes source (pciTarget vendor device) driGrpDevPci fuel
    initResource env header source driGrpDevPci index args s

def initAcpiResource (hidHash : BitVec 64) (args : Nat) (fuel : Nat) (s : State σ) :
    Outcome (Option Resource × State σ) :=
  if hidHash = 0 then .ret (none,s)
  else do
    let index ← internalFindCode codes source hidHash driGrpDevAcpi fuel
    initResource env header source driGrpDevAcpi index args s

end

structure GroupTable (header : Header) (source : Source) (group : Int) where
  entries : List (Option String)
  inside : 0 ≤ group ∧ group < header.driverGroups
  count : source.dridefsGetEntryCount group = entries.length
  reads : ∀ i def_, entries[i]? = some def_ → source.arcDrisTable group.toNat i = .ret def_

section
variable (codes : String → Option Codes) (target : BitVec 64)

def contains (def_ : Option String) : Bool := match def_.bind codes with
  | none => false
  | some list => decide (target ∈ list.list)

def driverOf (entries : List (Option String)) : Option Nat := entries.findIdx? (contains codes target)

/- Up to the driver found, the code or the terminator of each list is among the first 2^32 places. -/
def Scanned : List (Option String) → Prop
  | [] => True
  | def_::rest => (∀ list, def_.bind codes = some list → list.list.idxOf target < 2^32) ∧
    (contains codes target def_ = false → Scanned rest)

def Fits (entries : List (Option String)) : Prop :=
  Scanned codes target entries ∧ ∀ i, driverOf codes target entries = some i → i < 2^31

end

def Starts {header : Header} {source : Source} {group : Int} (table : GroupTable header source group) (found : Option Nat)
    (run : ∀ {σ : Type}, Env σ → Nat → Nat → State σ → Outcome (Option Resource × State σ)) : Prop :=
  ∀ (σ : Type) (env : Env σ) (args : Nat) (s : State σ), ∃ enough, ∀ fuel ≥ enough, run env args fuel s = .ret (match found with
    | none => (none,s)
    | some i => startDriver env (table.entries[i]?.join) group i args s)

section
variable {list : Codes} {target : BitVec 64}

theorem codeNext {code : Nat} (before : code < list.list.idxOf target) (fuel : Nat) :
    codeLoop list target (fuel + 1) code = codeLoop list target fuel ((code + 1) % 2^32) := by
  have low : code < list.list.length := Nat.lt_of_lt_of_le before List.idxOf_le_length
  have entry : list.at code = .ret list.list[code] := by
    rw [Codes.at,List.getElem?_eq_getElem low]
  have other : (list.list[code] == target) = false := List.not_of_lt_findIdx before
  rw [codeLoop,entry,Outcome.retBind,if_neg (list.plain _ (List.getElem_mem low)),if_neg (beq_eq_false_iff_ne.mp other)]

theorem codeLast (fuel : Nat) : codeLoop list target (fuel + 1) (list.list.idxOf target) = .ret (decide (target ∈ list.list)) := by
  by_cases here : target ∈ list.list
  · have low := List.idxOf_lt_length_iff.mpr here
    have entry : list.at (list.list.idxOf target) = .ret target := by
      rw [Codes.at,List.getElem?_eq_getElem low,List.getElem_idxOf low]
    rw [codeLoop,entry,Outcome.retBind,if_neg (list.plain target here),if_pos rfl,decide_eq_true here]
  · have past := List.idxOf_eq_length here
    have entry : list.at (list.list.idxOf target) = .ret codesTerminator := by
      rw [Codes.at,past,List.getElem?_eq_none (Nat.le_refl _)]
      exact if_pos rfl
    rw [codeLoop,entry,Outcome.retBind,if_pos rfl,decide_eq_false here]

theorem codeFinds (short : list.list.idxOf target < 2^32) {fuel code : Nat} (before : code ≤ list.list.idxOf target)
    (enough : list.list.idxOf target < code + fuel) : codeLoop list target fuel code = .ret (decide (target ∈ list.list)) := by
  induction fuel generalizing code with
  | zero => omega
  | succ fuel ih =>
    rcases Nat.lt_or_eq_of_le before with less | same
    · rw [codeNext less,Nat.mod_eq_of_lt (by omega)]
      exact ih (by omega) (by omega)
    · rw [same]
      exact codeLast fuel

theorem codeWraps (long : 2^32 ≤ list.list.idxOf target) (fuel : Nat) {code : Nat} (low : code < 2^32) :
    codeLoop list target fuel code = .running := by
  induction fuel generalizing code with
  | zero => rfl
  | succ fuel ih =>
    rw [codeNext (by omega)]
    exact ih (Nat.mod_lt _ (by decide))

end

section
variable {codes : String → Option Codes} {source : Source} {target : BitVec 64} {group : Int}

theorem entryLooks (n : Nat) {i : Nat} {def_ : Option String} (first : source.arcDrisTable group.toNat i = .ret def_)
    (short : ∀ list, def_.bind codes = some list → list.list.idxOf target < 2^32) :
    ∃ enough, ∀ fuel ≥ enough, entryLoop codes source target group fuel (n + 1) i =
      if contains codes target def_ then .ret (toInt i) else entryLoop codes source target group fuel n (i + 1) := by
  cases here : def_.bind codes with
  | none =>
    refine ⟨0,fun fuel _ => ?_⟩
    rw [entryLoop,first,Outcome.retBind,here,contains,here]
    rfl
  | some list =>
    refine ⟨list.list.idxOf target + 1,fun fuel most => ?_⟩
    have found := codeFinds (short list here) (Nat.zero_le _) (show list.list.idxOf target < 0 + fuel by omega)
    rw [entryLoop,first,Outcome.retBind,here,contains,here]
    change (codeLoop list target fuel 0 >>= _) = _
    rw [found]
    rfl

theorem entryStuck (n : Nat) {i : Nat} {def_ : Option String} (first : source.arcDrisTable group.toNat i = .ret def_)
    {list : Codes} (here : def_.bind codes = some list) (long : 2^32 ≤ list.list.idxOf target) (fuel : Nat) :
    entryLoop codes source target group fuel (n + 1) i = .running := by
  rw [entryLoop,first,Outcome.retBind,here]
  change (codeLoop list target fuel 0 >>= _) = _
  rw [codeWraps long fuel (by decide)]
  rfl

theorem entriesFind {rest : List (Option String)} {i : Nat} (scanned : Scanned codes target rest)
    (reads : ∀ j def_, rest[j]? = some def_ → source.arcDrisTable group.toNat (i + j) = .ret def_) :
    ∃ enough, ∀ fuel ≥ enough, entryLoop codes source target group fuel rest.length i =
      .ret (match driverOf codes target rest with
        | none => -1
        | some j => toInt (i + j)) := by
  induction rest generalizing i with
  | nil => exact ⟨0,fun fuel _ => rfl⟩
  | cons def_ rest ih =>
    obtain ⟨short,later⟩ := scanned
    have first : source.arcDrisTable group.toNat i = .ret def_ := reads 0 def_ rfl
    obtain ⟨one,looks⟩ := entryLooks rest.length first short
    cases has : contains codes target def_ with
    | true =>
      refine ⟨one,fun fuel most => ?_⟩
      have found : driverOf codes target (def_::rest) = some 0 := by rw [driverOf,List.findIdx?_cons,if_pos has]
      rw [List.length_cons,looks fuel most,if_pos has,found]
      rfl
    | false =>
      obtain ⟨more,ends⟩ := ih (i := i + 1) (later has) fun j other here => by
        rw [Nat.add_assoc,Nat.add_comm 1 j]
        exact reads (j + 1) other here
      refine ⟨max one more,fun fuel most => ?_⟩
      have shift : driverOf codes target (def_::rest) = (driverOf codes target rest).map fun j => j + 1 := by
        rw [driverOf,List.findIdx?_cons,if_neg (Bool.eq_false_iff.mp has)]
        rfl
      rw [List.length_cons,looks fuel (by omega),if_neg (Bool.eq_false_iff.mp has),ends fuel (by omega),shift]
      cases driverOf codes target rest with
      | none => rfl
      | some j => simp only [Option.map_some,Nat.add_assoc,Nat.add_comm 1 j]

theorem findsScanned (codes : String → Option Codes) (target : BitVec 64) {rest : List (Option String)} {i : Nat}
    (reads : ∀ j def_, rest[j]? = some def_ → source.arcDrisTable group.toNat (i + j) = .ret def_)
    (ends : ∃ enough, ∀ fuel ≥ enough, ∃ r, entryLoop codes source target group fuel rest.length i = .ret r) :
    Scanned codes target rest := by
  induction rest generalizing i with
  | nil => trivial
  | cons def_ rest ih =>
    obtain ⟨enough,ends⟩ := ends
    have first : source.arcDrisTable group.toNat i = .ret def_ := reads 0 def_ rfl
    have short : ∀ list, def_.bind codes = some list → list.list.idxOf target < 2^32 := by
      intro list here
      by_contra long
      obtain ⟨r,last⟩ := ends enough (Nat.le_refl _)
      rw [List.length_cons,entryStuck rest.length first here (Nat.le_of_not_lt long)] at last
      cases last
    refine ⟨short,fun has => ih (i := i + 1) (fun j other here => ?_) ?_⟩
    · rw [Nat.add_assoc,Nat.add_comm 1 j]
      exact reads (j + 1) other here
    · obtain ⟨one,looks⟩ := entryLooks rest.length first short
      refine ⟨max one enough,fun fuel most => ?_⟩
      obtain ⟨r,last⟩ := ends fuel (by omega)
      rw [List.length_cons,looks fuel (by omega),if_neg (Bool.eq_false_iff.mp has)] at last
      exact ⟨r,last⟩

end

section
variable {codes : String → Option Codes} {header : Header} {source : Source} {target : BitVec 64} {group : Int}
  (table : GroupTable header source group)

theorem tableFinds (scanned : Scanned codes target table.entries) :
    ∃ enough, ∀ fuel ≥ enough, internalFindCode codes source target group fuel =
      .ret (match driverOf codes target table.entries with
        | none => -1
        | some i => toInt i) := by
  obtain ⟨enough,ends⟩ := entriesFind (i := 0) scanned fun j def_ here => by
    rw [Nat.zero_add]
    exact table.reads j def_ here
  refine ⟨enough,fun fuel most => ?_⟩
  rw [internalFindCode,table.count,Int.toNat_natCast,ends fuel most]
  simp only [Nat.zero_add]

theorem tableScanned (ends : ∃ enough, ∀ fuel ≥ enough, ∃ r, internalFindCode codes source target group fuel = .ret r) :
    Scanned codes target table.entries := by
  obtain ⟨enough,ends⟩ := ends
  have reads : ∀ j def_, table.entries[j]? = some def_ → source.arcDrisTable group.toNat (0 + j) = .ret def_ := by
    intro j def_ here
    rw [Nat.zero_add]
    exact table.reads j def_ here
  refine findsScanned codes target reads ⟨enough,fun fuel most => ?_⟩
  obtain ⟨r,last⟩ := ends fuel most
  rw [internalFindCode,table.count,Int.toNat_natCast] at last
  exact ⟨r,last⟩

theorem tableStarts {i : Nat} {def_ : Option String} (here : table.entries[i]? = some def_) {σ : Type} (env : Env σ)
    (args : Nat) (s : State σ) :
    initResource env header source group i args s = .ret (startDriver env def_ group i args s) := by
  obtain ⟨low,high⟩ := table.inside
  have below := (List.getElem?_eq_some_iff.mp here).1
  unfold initResource
  rw [table.count,if_neg (by omega),Int.toNat_natCast,table.reads i def_ here]
  rfl

theorem missingRefused {σ : Type} (env : Env σ) (args : Nat) (s : State σ) :
    initResource env header source group (-1) args s = .ret (none,s) := if_pos (.inr (.inl (by decide)))

def taker : Env Unit := ⟨fun w => (true,w),id,fun _ => some fun resource _ w => (0,resource,w)⟩

theorem takerIndex {index : Int} {args : Nat} {s t : State Unit} {resource : Resource}
    (ok : initResource taker header source group index args s = .ret (some resource,t)) : resource.driIndex = index := by
  unfold initResource at ok
  dsimp only at ok
  split at ok
  · cases ok
  · obtain ⟨def_,_,last⟩ := Outcome.bindRet ok
    cases def_ with
    | none => cases last
    | some def_ =>
      cases last
      rfl

theorem driverHas {entries : List (Option String)} {i : Nat} (found : driverOf codes target entries = some i) :
    ∃ def_, entries[i]? = some (some def_) := by
  obtain ⟨low,has,_⟩ := List.findIdx?_eq_some_iff_getElem.mp found
  cases here : entries[i] with
  | none =>
    rw [here] at has
    cases has
  | some def_ => exact ⟨def_,by rw [List.getElem?_eq_getElem low,here]⟩

def search (codes : String → Option Codes) (header : Header) (source : Source) (target : BitVec 64) (group : Int)
    {σ : Type} (env : Env σ) (args fuel : Nat) (s : State σ) : Outcome (Option Resource × State σ) := do
  let index ← internalFindCode codes source target group fuel
  initResource env header source group index args s

theorem startsFits : Starts table (driverOf codes target table.entries) (search codes header source target group) ↔
    Fits codes target table.entries := by
  constructor
  · intro starts
    obtain ⟨enough,ends⟩ := starts Unit taker 0 ⟨0,()⟩
    have scanned : Scanned codes target table.entries := by
      refine tableScanned table ⟨enough,fun fuel most => ?_⟩
      obtain ⟨index,found,_⟩ := Outcome.bindRet (ends fuel most)
      exact ⟨index,found⟩
    refine ⟨scanned,fun i found => ?_⟩
    obtain ⟨more,finds⟩ := tableFinds table scanned
    obtain ⟨def_,here⟩ := driverHas found
    have run := ends (max enough more) (Nat.le_max_left enough more)
    dsimp only [search] at run
    rw [finds _ (Nat.le_max_right enough more),found,Outcome.retBind] at run
    simp only [here] at run
    exact intIff.mp (takerIndex run).symm
  · intro fits
    obtain ⟨scanned,small⟩ := fits
    obtain ⟨enough,finds⟩ := tableFinds table scanned
    refine fun σ env args s => ⟨enough,fun fuel most => ?_⟩
    dsimp only [search]
    rw [finds fuel most]
    cases found : driverOf codes target table.entries with
    | none => exact missingRefused env args s
    | some i =>
      obtain ⟨def_,here⟩ := driverHas found
      have same : toInt i = i := intIff.mpr (small i found)
      change initResource env header source group (toInt i) args s = .ret (startDriver env table.entries[i]?.join group i args s)
      rw [same,tableStarts table here,here]
      rfl

end

def pciSkipped (vendor device : BitVec 16) : Prop := vendor = 0xFFFF ∧ device = 0xFFFF
instance (vendor device) : Decidable (pciSkipped vendor device) := by unfold pciSkipped; infer_instance

structure Dispatched (codes : String → Option Codes) {header : Header} {source : Source}
    (pci : GroupTable header source driGrpDevPci) (acpi : GroupTable header source driGrpDevAcpi)
    (vendor device : BitVec 16) (hidHash : BitVec 64) : Prop where
  pci : Starts pci (if pciSkipped vendor device then none else driverOf codes (pciTarget vendor device) pci.entries)
    fun env meta_ fuel s => initPciResource codes source env header vendor device meta_ fuel s
  acpi : Starts acpi (if hidHash = 0 then none else driverOf codes hidHash acpi.entries)
    fun env args fuel s => initAcpiResource codes source env header hidHash args fuel s

theorem startsNone {header : Header} {source : Source} {group : Int} (table : GroupTable header source group)
    {run : ∀ {σ : Type}, Env σ → Nat → Nat → State σ → Outcome (Option Resource × State σ)}
    (none_ : ∀ {σ : Type} (env : Env σ) args fuel s, run env args fuel s = .ret (none,s)) : Starts table none run :=
  fun _ env args s => ⟨0,fun fuel _ => none_ env args fuel s⟩

section
variable (codes : String → Option Codes) {header : Header} {source : Source}

theorem pciFits (table : GroupTable header source driGrpDevPci) (vendor device : BitVec 16) :
    Starts table (if pciSkipped vendor device then none else driverOf codes (pciTarget vendor device) table.entries)
      (fun env meta_ fuel s => initPciResource codes source env header vendor device meta_ fuel s) ↔
        pciSkipped vendor device ∨ Fits codes (pciTarget vendor device) table.entries := by
  by_cases skipped : pciSkipped vendor device
  · rw [if_pos skipped]
    exact iff_of_true (startsNone table fun _ _ _ _ => if_pos skipped) (.inl skipped)
  · have searches {σ : Type} (env : Env σ) (meta_ fuel : Nat) (s : State σ) :
        initPciResource codes source env header vendor device meta_ fuel s =
          search codes header source (pciTarget vendor device) driGrpDevPci env meta_ fuel s := if_neg skipped
    simp only [if_neg skipped,or_iff_right skipped,searches]
    exact startsFits table

theorem acpiFits (table : GroupTable header source driGrpDevAcpi) (hidHash : BitVec 64) :
    Starts table (if hidHash = 0 then none else driverOf codes hidHash table.entries)
      (fun env args fuel s => initAcpiResource codes source env header hidHash args fuel s) ↔
        hidHash = 0 ∨ Fits codes hidHash table.entries := by
  by_cases skipped : hidHash = 0
  · rw [if_pos skipped]
    exact iff_of_true (startsNone table fun _ _ _ _ => if_pos skipped) (.inl skipped)
  · have searches {σ : Type} (env : Env σ) (args fuel : Nat) (s : State σ) :
        initAcpiResource codes source env header hidHash args fuel s =
          search codes header source hidHash driGrpDevAcpi env args fuel s := if_neg skipped
    simp only [if_neg skipped,or_iff_right skipped,searches]
    exact startsFits table

/-- Devices get the driver of the smallest index that has their code, or none, exactly when what is
looked at of each code list fits an index of 32 bits and the driver's index an int. -/
theorem dispatchedIff (pci : GroupTable header source driGrpDevPci) (acpi : GroupTable header source driGrpDevAcpi)
    (vendor device : BitVec 16) (hidHash : BitVec 64) : Dispatched codes pci acpi vendor device hidHash ↔
      (pciSkipped vendor device ∨ Fits codes (pciTarget vendor device) pci.entries) ∧
      (hidHash = 0 ∨ Fits codes hidHash acpi.entries) := by
  constructor
  · intro dispatched
    exact ⟨(pciFits codes pci vendor device).mp dispatched.pci,(acpiFits codes acpi hidHash).mp dispatched.acpi⟩
  · intro fits
    exact ⟨(pciFits codes pci vendor device).mpr fits.1,(acpiFits codes acpi hidHash).mpr fits.2⟩

end

def oneDriver : Source where
  tables := [("arc_dris_dev_pci",⟨1,[.entry 0 "ARC_DRIGRP_DEV_PCI" "nvme"]⟩),("arc_dris_dev_acpi",⟨0,[]⟩)]
  outer := ⟨5,[.row 3 "arc_dris_dev_acpi",.row 4 "arc_dris_dev_pci"]⟩
  limit := 6
  cases := [(3,0),(4,1)]

def nvmeOnly : GroupTable ⟨6,[]⟩ oneDriver driGrpDevPci where
  entries := [some (driverObject "ARC_DRIGRP_DEV_PCI" "nvme")]
  inside := by decide
  count := by decide
  reads := by
    intro i def_ here
    cases i with
    | zero =>
      cases here
      decide
    | succ i => cases here

def noneAcpi : GroupTable ⟨6,[]⟩ oneDriver driGrpDevAcpi := ⟨[],by decide,by decide,fun _ _ here => nomatch here⟩

def ones (n : Nat) : Codes := ⟨List.replicate n 1,fun c mem => by rw [List.eq_of_mem_replicate mem]; decide⟩

theorem onesTooLong {n : Nat} (long : 2^32 ≤ n) : ¬ Dispatched (fun _ => some (ones n)) nvmeOnly noneAcpi 0 2 0 := by
  intro dispatched
  rcases (pciFits _ nvmeOnly 0 2).mp dispatched.pci with skipped | fits
  · exact absurd skipped (by decide)
  · have absent : pciTarget 0 2 ∉ (ones n).list := fun mem => absurd (List.eq_of_mem_replicate mem) (by decide)
    have short := fits.1.1 (ones n) rfl
    rw [List.idxOf_eq_length absent] at short
    have length : (ones n).list.length = n := List.length_replicate
    omega

theorem longListWalked : ¬ ∀ (codes : String → Option Codes) (header : Header) (source : Source)
    (pci : GroupTable header source driGrpDevPci) (acpi : GroupTable header source driGrpDevAcpi)
    (vendor device : BitVec 16) (hidHash : BitVec 64), Dispatched codes pci acpi vendor device hidHash := by
  intro all
  exact onesTooLong (Nat.le_refl (2^32)) (all _ _ _ nvmeOnly noneAcpi 0 2 0)

end Kdrivers.FindCode
