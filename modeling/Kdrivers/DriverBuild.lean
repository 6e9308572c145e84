import Kdrivers.GroupEnum
import Kdrivers.InitResource

/-! The generator as a whole (gen_dri_defs.py): from the lines of resource.h and of the sources
to drivers that init_resource starts by their constants. -/
namespace Kdrivers.DriverBuild
open PyDict PyText
open DriverIndices
open DriverTables (Header Source Assigned Registered tableOf macroName macro? driverObject constructDriDefsHeader constructDriDefsSource
  patchDefinitions)
open GroupEnum (White Identifier nameChars noWhite)

def registerText : Text := "ARC_REGISTER_DRIVER".toList
def shareText : Text := "ARC_SHARE_DRIVER_INDICES".toList
def defineText : Text := "#define".toList

def shares (line : Text) : Bool := holds shareText line && !holds defineText line
def registers (line : Text) : Bool := holds registerText line && !holds defineText line

-- split by the first parenthesis and then by the second; none is an IndexError
def argument (line : Text) : Option Text :=
  let clean := without ' ' line
  if '(' ∈ clean then some (first ')' (second '(' clean)) else none

def getSharedGroups (lines : List Text) : Option (List (List String)) :=
  (lines.filter shares).mapM fun line => (argument line).map fun clean => (clean.splitOn ',').map String.ofList

def registration (line : Text) : Option (String × String) := do
  let clean ← argument line
  if ',' ∈ clean then some (String.ofList (first ',' clean),String.ofList (second ',' clean)) else none

-- the lines of a source are read from its last to its first
def findRegistrations (sources : List (List Text)) : Option (List (String × String)) :=
  (sources.mapM fun (lines : List Text) => (lines.reverse.filter registers).mapM registration).map List.flatten

inductive Failure where
  | valueError | indexError | indices (e : PyError)
  | negativeGroup
  deriving DecidableEq, Repr

def orFail {α : Type} (failure : Failure) : Option α → Except Failure α
  | none => .error failure
  | some a => .ok a

-- groups of negative value are not looked into any further
def groupValues (symbols : Dict Text Int) : Option (Dict String Nat) :=
  symbols.mapM fun symbol => if 0 ≤ symbol.2 then some (String.ofList symbol.1,symbol.2.toNat) else none

def main [DriverTables.Unicode] (foreign : Text → Option Int) (order : SetOrder) (resource : List Text) (sources : List (List Text)) :
    Except Failure (Header × Source) := do
  let symbols ← orFail .valueError (GroupEnum.getGroupIndicesAndSymbols foreign resource)
  let symbols ← orFail .negativeGroup (groupValues symbols)
  let shared ← orFail .indexError (getSharedGroups resource)
  let found ← orFail .indexError (findRegistrations sources)
  let definitions ← (fillInIndices order shared (enumerateSourceFiles found) symbols).mapError .indices
  let definitions := patchDefinitions definitions symbols
  let source ← orFail .valueError (constructDriDefsSource definitions symbols)
  .ok (constructDriDefsHeader definitions,source)

def blank (n : Nat) : Text := List.replicate n ' '

structure Argument where
  before : Nat
  name : Identifier
  after : Nat

def Argument.text (a : Argument) : Text := blank a.before ++ (a.name.text ++ blank a.after)
def Argument.string (a : Argument) : String := String.ofList a.name.text

structure Invocation where
  indent : White
  gap : Nat
  rest : Text
  plain : '#' ∉ rest

def Invocation.text (i : Invocation) (macro_ : Text) (arguments : List Argument) : Text :=
  i.indent.text ++ (macro_ ++ (blank i.gap ++ '('::([','].intercalate (arguments.map Argument.text) ++ ')'::i.rest)))

inductive SourceLine where
  | registration (i : Invocation) (group name : Argument)
  | other (text : Text) (plain : registers text = false)

def SourceLine.text : SourceLine → Text
  | .registration i group name => i.text registerText [group,name]
  | .other text _ => text

def SourceLine.driver? : SourceLine → Option (String × String)
  | .registration _ group name => some (group.string,name.string)
  | .other _ _ => none

structure Tree where
  file : GroupEnum.ResourceFile
  shares : List (Invocation × List Argument)
  groups : ∀ share ∈ shares, share.2 ≠ []
  shared : file.lines.filter DriverBuild.shares = shares.map fun share => share.1.text shareText share.2
  sources : List (List SourceLine)

def Tree.clusters (tree : Tree) : List (List String) := tree.shares.map fun share => share.2.map Argument.string

def driversOf (lines : List SourceLine) : List (String × String) := lines.reverse.filterMap SourceLine.driver?

def Tree.drivers (tree : Tree) : List (String × String) := tree.sources.flatMap driversOf

def Tree.texts (tree : Tree) : List (List Text) := tree.sources.map fun lines => lines.map SourceLine.text

theorem blankWithout (n : Nat) : without ' ' (blank n) = [] := by
  simp [without,blank]

theorem withoutCons {c d : Char} (other : d ≠ c) (text : Text) : without c (d::text) = d::without c text :=
  List.filter_cons_of_pos (by simpa using other)

theorem nameBare (name : Identifier) : without ' ' name.text = name.text :=
  withoutSelf (GroupEnum.nameOther (by decide) name)

theorem argumentWithout (a : Argument) : without ' ' a.text = a.name.text := by
  rw [Argument.text,GroupEnum.without_append,GroupEnum.without_append,blankWithout,blankWithout,nameBare,List.nil_append,
    List.append_nil]

theorem argumentsWithout (as : List Argument) :
    without ' ' ([','].intercalate (as.map Argument.text)) = [','].intercalate (as.map fun a => a.name.text) := by
  induction as with
  | nil => rfl
  | cons a rest ih =>
    cases rest with
    | nil => simpa [List.intercalate] using argumentWithout a
    | cons b rest =>
      have join (t u : Text) (ts : List Text) : [','].intercalate (t::u::ts) = t ++ ','::[','].intercalate (u::ts) := by
        simp [List.intercalate]
      rw [List.map_cons] at ih
      rw [List.map_cons,List.map_cons,List.map_cons,List.map_cons,join,join,GroupEnum.without_append,argumentWithout,
        withoutCons (by decide)]
      exact congrArg (fun text => a.name.text ++ ','::text) ih

theorem joinedNot {c : Char} (other : c ∉ nameChars) (comma : c ≠ ',') (as : List Argument) :
    c ∉ [','].intercalate (as.map fun a => a.name.text) := by
  induction as with
  | nil => exact List.not_mem_nil
  | cons a rest ih =>
    have own : c ∉ a.name.text := fun mem => other (a.name.chars c mem)
    cases rest with
    | nil => simpa [List.intercalate] using own
    | cons b rest =>
      have join (t u : Text) (ts : List Text) : [','].intercalate (t::u::ts) = t ++ ','::[','].intercalate (u::ts) := by
        simp [List.intercalate]
      rw [List.map_cons,List.map_cons,join]
      exact List.not_mem_append own (List.not_mem_cons_of_ne_of_not_mem comma ih)

theorem firstOfFirst {c d : Char} {a : Text} (inner : c ∉ a) (outer : d ∉ a) (differ : c ≠ d) (b : Text) :
    first d (first c (a ++ d::b)) = a := by
  have kept : first c (a ++ d::b) = a ++ d::first c b := by
    rw [first,List.takeWhile_append_of_pos fun e mem => by simpa using fun same : e = c => inner (same ▸ mem)]
    simp [first,Ne.symm differ]
  rw [kept,firstPart outer]

theorem argumentOf (i : Invocation) {macro_ : Text} (plain : '(' ∉ macro_) (as : List Argument) :
    argument (i.text macro_ as) = some ([','].intercalate (as.map fun a => a.name.text)) := by
  have front : '(' ∉ without ' ' i.indent.text ++ without ' ' macro_ := by
    refine List.not_mem_append (fun mem => ?_) fun mem => plain (List.mem_filter.mp mem).1
    exact absurd (i.indent.white _ (List.mem_filter.mp mem).1) (by decide)
  have clean : without ' ' (i.text macro_ as) = (without ' ' i.indent.text ++ without ' ' macro_) ++
      '('::([','].intercalate (as.map fun a => a.name.text) ++ ')'::without ' ' i.rest) := by
    rw [Invocation.text,GroupEnum.without_append,GroupEnum.without_append,GroupEnum.without_append,blankWithout,
      withoutCons (by decide),GroupEnum.without_append,argumentsWithout,withoutCons (by decide),List.nil_append,
      List.append_assoc]
  have behind : second '(' ((without ' ' i.indent.text ++ without ' ' macro_) ++
      '('::([','].intercalate (as.map fun a => a.name.text) ++ ')'::without ' ' i.rest)) =
        first '(' ([','].intercalate (as.map fun a => a.name.text) ++ ')'::without ' ' i.rest) := by
    rw [second,List.dropWhile_append_of_pos fun e mem => by simpa using fun same : e = '(' => front (same ▸ mem)]
    simp
  unfold argument
  dsimp only
  rw [clean,if_pos (List.mem_append_right _ List.mem_cons_self),behind,
    firstOfFirst (joinedNot (by decide) (by decide) as) (joinedNot (by decide) (by decide) as) (by decide)]

theorem invocationPlain (i : Invocation) {macro_ : Text} (plain : '#' ∉ macro_) (as : List Argument) :
    holds defineText (i.text macro_ as) = false := by
  have blanks (n : Nat) : '#' ∉ blank n := fun mem => absurd (List.eq_of_mem_replicate mem) (by decide)
  have names : '#' ∉ [','].intercalate (as.map Argument.text) := by
    intro mem
    have kept : '#' ∈ without ' ' ([','].intercalate (as.map Argument.text)) := List.mem_filter.mpr ⟨mem,by decide⟩
    rw [argumentsWithout] at kept
    exact joinedNot (by decide) (by decide) as kept
  have white : '#' ∉ i.indent.text := fun mem => absurd (i.indent.white _ mem) (by decide)
  have absent : '#' ∉ i.text macro_ as :=
    List.not_mem_append white (List.not_mem_append plain (List.not_mem_append (blanks _)
      (List.not_mem_cons_of_ne_of_not_mem (by decide) (List.not_mem_append names
        (List.not_mem_cons_of_ne_of_not_mem (by decide) i.plain)))))
  rw [holds,decide_eq_false_iff_not]
  exact fun found => absent (found.subset (by decide))

theorem invocationHolds (i : Invocation) (macro_ : Text) (as : List Argument) : holds macro_ (i.text macro_ as) = true := by
  rw [holds,decide_eq_true_eq]
  exact ⟨i.indent.text,_,List.append_assoc ..⟩

theorem registersInvocation (i : Invocation) (as : List Argument) : registers (i.text registerText as) = true := by
  rw [registers,invocationHolds,invocationPlain i (by decide)]
  rfl

theorem nameNoComma (a : Argument) : ',' ∉ a.name.text := GroupEnum.nameOther (by decide) a.name

theorem registrationOf (i : Invocation) (group name : Argument) :
    registration (i.text registerText [group,name]) = some (group.string,name.string) := by
  have join : [','].intercalate ([group,name].map fun a => a.name.text) = group.name.text ++ ','::name.name.text := by
    simp [List.intercalate]
  unfold registration
  rw [argumentOf i (by decide),join]
  change (if ',' ∈ group.name.text ++ ','::name.name.text then _ else none) = _
  rw [if_pos (List.mem_append_right _ List.mem_cons_self),firstPart (nameNoComma group),
    secondPart (nameNoComma group) (nameNoComma name)]
  rfl

theorem mapSome {α β : Type} {f : α → Option β} {g : α → β} {l : List α} (each : ∀ x ∈ l, f x = some (g x)) :
    l.mapM f = some (l.map g) := by
  induction l with
  | nil => rfl
  | cons x rest ih =>
    rw [List.mapM_cons,each x List.mem_cons_self,ih fun y mem => each y (List.mem_cons_of_mem x mem)]
    rfl

theorem linesRegistered (lines : List SourceLine) :
    ((lines.map SourceLine.text).filter registers).mapM registration = some (lines.filterMap SourceLine.driver?) := by
  induction lines with
  | nil => rfl
  | cons line rest ih =>
    cases line with
    | other text plain =>
      rw [List.map_cons,List.filter_cons_of_neg (by rw [SourceLine.text,plain]; exact Bool.false_ne_true),ih]
      rfl
    | registration i group name =>
      have kept : registers (SourceLine.registration i group name).text = true := registersInvocation i [group,name]
      rw [List.map_cons,List.filter_cons_of_pos kept,List.mapM_cons,SourceLine.text,registrationOf,ih]
      rfl

theorem driversFound (tree : Tree) : findRegistrations tree.texts = some tree.drivers := by
  have sources : tree.texts.mapM (fun lines => (lines.reverse.filter registers).mapM registration) =
      some (tree.sources.map driversOf) := by
    rw [Tree.texts,List.mapM_map]
    refine mapSome fun lines _ => ?_
    change ((lines.map SourceLine.text).reverse.filter registers).mapM registration = _
    rw [← List.map_reverse,linesRegistered]
    rfl
  rw [findRegistrations,sources,Tree.drivers,List.flatMap_def]
  rfl

theorem clustersFound (tree : Tree) : getSharedGroups tree.file.lines = some tree.clusters := by
  rw [getSharedGroups,tree.shared,List.mapM_map]
  refine mapSome fun share mem => ?_
  have parts : ([','].intercalate (share.2.map fun a => a.name.text)).splitOn ',' = share.2.map fun a => a.name.text := by
    refine List.splitOn_intercalate ',' (fun part inside => ?_) fun none => tree.groups share mem (List.map_eq_nil_iff.mp none)
    obtain ⟨a,_,rfl⟩ := List.mem_map.mp inside
    exact nameNoComma a
  change (argument (share.1.text shareText share.2)).map _ = _
  rw [argumentOf share.1 (by decide),Option.map_some,parts,List.map_map]
  rfl

theorem valuesOf {symbols : Dict Text Int} {groups : Dict String Nat}
    (same : GroupEnum.named symbols = GroupEnum.counted groups) : groupValues symbols = some groups := by
  induction symbols generalizing groups with
  | nil =>
    cases groups with
    | nil => rfl
    | cons group rest => cases same
  | cons symbol symbols ih =>
    cases groups with
    | nil => cases same
    | cons group rest =>
      obtain ⟨head,tail⟩ := List.cons.inj same
      obtain ⟨name,value⟩ := Prod.mk.inj head
      have later := ih tail
      rw [groupValues] at later
      rw [groupValues,List.mapM_cons,later,value,if_pos (Int.natCast_nonneg _),name]
      rfl

def RowsOnce (t : Tables) : Prop := ∀ g row, item? t.definitions g = some row → (keys row).Nodup

theorem foldKeeps {α β ε : Type} {P : β → Prop} {f : β → α → Except ε β}
    (step : ∀ b a c, P b → f b a = .ok c → P c) {l : List α} {b c : β} (first : P b) (run : l.foldlM f b = .ok c) : P c := by
  induction l generalizing b with
  | nil =>
    cases run
    exact first
  | cons a rest ih =>
    rw [List.foldlM_cons] at run
    cases turn : f b a with
    | error e =>
      rw [turn] at run
      cases run
    | ok next =>
      rw [turn] at run
      exact ih (step b a next first turn) run

theorem setRows {t : Tables} (once : RowsOnce t) {g : String} {row : Dict String Int} (here : item? t.definitions g = some row)
    (name : String) (v : Int) (indices : Dict String Int) :
    RowsOnce ⟨setItem t.definitions g (setItem row name v),indices⟩ := by
  intro h other found
  rw [itemSet] at found
  split at found
  · cases found
    exact keysNodup (once g row here) name v
  · exact once h other found

theorem assignRows {name : String} {idx : Int} (t : Tables) (g : String) (after : Tables) (once : RowsOnce t)
    (run : assign name idx t g = .ok after) : RowsOnce after := by
  unfold assign at run
  cases here : item? t.definitions g with
  | none =>
    rw [here] at run
    cases run
  | some row =>
    rw [here] at run
    dsimp only at run
    split at run
    · cases run
      exact setRows once here name _ _
    · split at run
      · cases run
        exact setRows once here name idx _
      · cases run
        exact once

section
variable {order : SetOrder} {shared : List (List String)}

theorem nameRows {definition : String} (t : Tables) (name : String) (after : Tables) (once : RowsOnce t)
    (run : fillName order shared definition t name = .ok after) : RowsOnce after := by
  unfold fillName at run
  split at run
  · cases run
  · change (_ >>= _) = _ at run
    cases found : ((shared.find? fun cluster => definition ∈ cluster).getD []).foldlM
        (fun _ group => indexOf t.indices group) ‹Int› with
    | error e =>
      rw [found] at run
      cases run
    | ok idx =>
      rw [found] at run
      exact foldKeeps assignRows once run

theorem groupRows (t : Tables) (definition : String) (after : Tables) (once : RowsOnce t)
    (run : fillGroup order shared t definition = .ok after) : RowsOnce after := by
  unfold fillGroup at run
  split at run
  · cases run
  · exact foldKeeps nameRows once run

theorem numberedAll (order : SetOrder) {found : List (String × String)} {symbols : Dict String Nat}
    (known : ∀ p ∈ found, p.1 ∈ keys symbols) (disjoint : Disjoint shared) (complete : Complete found shared)
    (separated : Separated found shared) : ∃ result,
      fillInIndices order shared (enumerateSourceFiles found) symbols = .ok result ∧ Assigned symbols result ∧
        (∀ g n, (g,n) ∈ found ↔ ∃ i, Registered result g n i) ∧
        ∀ cluster ∈ shared, ∀ g ∈ cluster, ∀ h ∈ cluster, ∀ n, (g,n) ∈ found → (h,n) ∈ found →
          indexIn result g n = indexIn result h n := by
  have based := enumerated found
  have groups : ∀ g ∈ keys (enumerateSourceFiles found), g ∈ keys symbols := by
    intro g own
    obtain ⟨n,pair⟩ := (ownKeys based).mp own
    exact known _ pair
  have first := shownFirst based shared symbols groups
  obtain ⟨t,turned,shown⟩ := groupsShown order disjoint first (fun g own => own) ((completeIff disjoint).mp complete)
  have once : RowsOnce t := foldKeeps groupRows (fun g row here => (based.rows g row here).1) turned
  have index {g n : String} (pair : (g,n) ∈ found) := numberedIndices shown pair
  have found_ {g n : String} {i : Int} (driver : Registered t.definitions g n i) : (g,n) ∈ found := by
    obtain ⟨row,here,_⟩ := Option.bind_eq_some_iff.mp driver.2
    have own : g ∈ keys (enumerateSourceFiles found) := by
      rw [← shown.groups]
      exact itemMem.mp ⟨row,here⟩
    have value := shown.cells g own n
    rw [driver.2,cell] at value
    have nonneg := driver.1
    by_cases mem : n ∈ namesOf (enumerateSourceFiles found) g
    · exact (based.mem g n).mp mem
    · rw [if_neg mem,if_neg mem] at value
      split at value
      · cases value
        omega
      · cases value
  refine ⟨t.definitions,?_,⟨fun g mem => groups g (shown.groups ▸ mem),?_,once,fun g row here _ => ?_,
    fun g n m i left right => ?_⟩,fun g n => ⟨fun pair => ⟨_,Int.natCast_nonneg _,index pair⟩,fun has => has.elim fun _ => found_⟩,
    fun cluster mem g here h there n left right => ?_⟩
  · unfold fillInIndices
    change (_ >>= _) = _
    rw [turned]
    rfl
  · rw [shown.groups]
    exact based.nodup
  · obtain ⟨n,pair⟩ := (ownKeys based).mp (shown.groups ▸ itemMem.mp ⟨row,here⟩)
    exact ⟨n,_,Int.natCast_nonneg _,index pair⟩
  · by_contra differ
    have ranks := Int.ofNat_inj.mp (Option.some.inj
      ((index (found_ left)).symm.trans (left.2.trans (right.2.symm.trans (index (found_ right))))))
    rcases twoOf (numberedOwn shared (found_ left)) (numberedOwn shared (found_ right)) differ with ⟨a,b,c,split⟩ | ⟨a,b,c,split⟩
    · exact rankedApart disjoint separated (found_ left) (found_ right) split ranks
    · exact rankedApart disjoint separated (found_ right) (found_ left) split ranks.symm
  · have same : clusterOf shared h = clusterOf shared g :=
      (clusterIn disjoint mem there).trans (clusterIn disjoint mem here).symm
    have lasts : lastOf shared h = lastOf shared g := lastSame disjoint (same ▸ clusterOwn shared h)
    rw [index left,index right,lasts]
    unfold numbered
    rw [same]

end

section
variable [DriverTables.Unicode]

structure Sound (enum : DriverTables.Enumeration) (tree : Tree) : Prop where
  written : GroupEnum.Written enum.items (GroupEnum.enumerators tree.file.body.lines)
  clear : GroupEnum.Clear true tree.file.body.lines
  known : ∀ p ∈ tree.drivers, p.1 ∈ keys enum.symbols
  within : ∀ p ∈ tree.drivers, ∀ v, item? enum.symbols p.1 = some v → v < enum.symbols.length
  disjoint : Disjoint tree.clusters
  complete : Complete tree.drivers tree.clusters
  separated : Separated tree.drivers tree.clusters
  tables : ("arc_dris_table"::(keys enum.symbols).map tableOf).Nodup
  objects : (tree.drivers.map fun p => driverObject p.1 p.2).Nodup
  macros : ∀ p ∈ tree.drivers, ∀ q ∈ tree.drivers, macroName p.1 p.2 = macroName q.1 q.2 → p = q
  reserved : ∀ p ∈ tree.drivers,
    macroName p.1 p.2 ≠ "ARC_DRIDEF_DRIVER_GROUPS" ∧ macroName p.1 p.2 ≠ "ARC_DRIDEF_CODES_TERMINATOR"

end

def IsGroup (tree : Tree) (group : String) (v : Int) : Prop :=
  ∃ name, group = String.ofList name ∧ (name,v) ∈ GroupEnum.cValues 0 (GroupEnum.enumerators tree.file.body.lines)

theorem isGroup {enum : DriverTables.Enumeration} {tree : Tree}
    (written : GroupEnum.Written enum.items (GroupEnum.enumerators tree.file.body.lines)) {group : String} {v : Int} :
    IsGroup tree group v ↔ ∃ n : Nat, v = n ∧ item? enum.symbols group = some n := by
  have fresh : (keys ([] : Dict String Nat) ++ enum.items.map Prod.fst).Nodup := enum.names
  have same : GroupEnum.counted enum.symbols = GroupEnum.named (GroupEnum.cValues 0 (GroupEnum.enumerators tree.file.body.lines)) :=
    GroupEnum.writtenRead written fresh 0
  have pairs : (group,v) ∈ GroupEnum.counted enum.symbols ↔ IsGroup tree group v := by
    rw [same]
    constructor
    · intro mem
      obtain ⟨⟨name,w⟩,pair,made⟩ := List.mem_map.mp mem
      cases made
      exact ⟨name,rfl,pair⟩
    · rintro ⟨name,rfl,pair⟩
      exact List.mem_map.mpr ⟨_,pair,rfl⟩
  rw [← pairs]
  constructor
  · intro mem
    obtain ⟨⟨g,n⟩,pair,made⟩ := List.mem_map.mp mem
    cases made
    exact ⟨n,rfl,(itemPair enum.symbolsUnique).mpr pair⟩
  · rintro ⟨n,rfl,here⟩
    exact List.mem_map.mpr ⟨_,itemIn here,rfl⟩

section
variable [DriverTables.Unicode]

structure Dispatches (tree : Tree) (header : Header) (source : Source) : Prop where
  compiles : DriverTables.Compiles header source
  starts : ∀ p ∈ tree.drivers, ∀ v, IsGroup tree p.1 v → ∃ i, macro? header (macroName p.1 p.2) = some (.number i) ∧
    ∀ (σ : Type) (env : InitResource.Env σ) args s, InitResource.initResource env header source v i args s =
      .ret (InitResource.startDriver env (some (driverObject p.1 p.2)) v i args s)
  alike : ∀ cluster ∈ tree.clusters, ∀ g ∈ cluster, ∀ h ∈ cluster, ∀ n, (g,n) ∈ tree.drivers → (h,n) ∈ tree.drivers →
    macro? header (macroName g n) = macro? header (macroName h n)
  others : ∀ group index, (∃ p ∈ tree.drivers, IsGroup tree p.1 group ∧
      macro? header (macroName p.1 p.2) = some (.number index)) ∨
    ∀ (σ : Type) (env : InitResource.Env σ) args s, InitResource.initResource env header source group index args s = .ret (none,s)

/-- Of a tree that is sound the generator makes files that are C, in which the constants of any
driver's group and of the driver start just that driver, a name that several groups of a share
have is one number in all of them, and any other pair of numbers starts nothing. -/
theorem driversBuilt (foreign : Text → Option Int) (order : SetOrder) {enum : DriverTables.Enumeration} {tree : Tree}
    (sound : Sound enum tree) :
    ∃ header source, main foreign order tree.file.lines tree.texts = .ok (header,source) ∧ Dispatches tree header source := by
  obtain ⟨result,numbered,assigned,registered,alike⟩ :=
    numberedAll order sound.known sound.disjoint sound.complete sound.separated
  have patched := DriverTables.patchedAssigned assigned
  have whole : ∀ g ∈ keys enum.symbols, g ∈ keys (patchDefinitions result enum.symbols) :=
    fun g known => (DriverTables.patchedKeys assigned g).mpr known
  have same := DriverTables.patchedRegistered assigned
  obtain ⟨_,_,made⟩ := DriverTables.constructed enum (patchDefinitions result enum.symbols)
  have driver {g n : String} {i : Int} (given : Registered result g n i) : (g,n) ∈ tree.drivers := (registered g n).mpr ⟨i,given⟩
  have apart : DriverTables.NamesApart enum.symbols (Registered (patchDefinitions result enum.symbols)) := by
    rw [same]
    refine ⟨sound.tables,fun g n i h m j left right equal => ?_,fun g n i h m j left right equal => ?_,
      fun g n i given equal => ?_,fun g n i given equal => ?_⟩
    · exact Prod.mk.inj (List.inj_on_of_nodup_map sound.objects (driver left) (driver right) equal)
    · cases sound.macros _ (driver left) _ (driver right) equal
      exact Option.some.inj (left.2.symm.trans right.2)
    · exact absurd equal (sound.reserved _ (driver given)).1
    · exact (sound.reserved _ (driver given)).2 equal
  have within : InitResource.Within enum.symbols (Registered (patchDefinitions result enum.symbols)) := by
    rw [same]
    exact fun g n i v given value => sound.within _ (driver given) v value
  have agrees := InitResource.withinAgrees patched whole made apart within
  rw [same] at agrees
  refine ⟨_,_,?_,agrees.compiles,fun p mem v group => ?_,fun cluster mem g here h there n left right => ?_,
    fun group index => ?_⟩
  · obtain ⟨symbols,scanned,values⟩ := Option.map_eq_some_iff.mp (GroupEnum.sameSymbols foreign sound.clear sound.written)
    unfold main
    rw [scanned]
    change (orFail Failure.negativeGroup (groupValues symbols) >>= _) = _
    rw [valuesOf values,clustersFound,driversFound]
    change (Except.mapError Failure.indices (fillInIndices order tree.clusters (enumerateSourceFiles tree.drivers) enum.symbols) >>= _) = _
    rw [numbered]
    change (orFail Failure.valueError (constructDriDefsSource (patchDefinitions result enum.symbols) enum.symbols) >>= _) = _
    rw [made]
    rfl
  · obtain ⟨i,given⟩ := (registered p.1 p.2).mp mem
    obtain ⟨w,rfl,value⟩ := (isGroup sound.written).mp group
    exact ⟨i,agrees.defines p.1 p.2 i given,fun σ env args s => agrees.starts σ env p.1 p.2 i w args s given value⟩
  · obtain ⟨i,first⟩ := (registered g n).mp left
    obtain ⟨j,second⟩ := (registered h n).mp right
    have equal := alike cluster mem g here h there n left right
    rw [first.2,second.2] at equal
    rw [agrees.defines g n i first,agrees.defines h n j second,Option.some.inj equal]
  · by_cases given : ∃ g n v, item? enum.symbols g = some v ∧ (v : Int) = group ∧ Registered result g n index
    · obtain ⟨g,n,v,value,rfl,given⟩ := given
      exact .inl ⟨_,driver given,(isGroup sound.written).mpr ⟨v,rfl,value⟩,agrees.defines g n index given⟩
    · refine .inr fun σ env args s => agrees.missing σ env group index args s fun g n v value at_ entry => ?_
      exact given ⟨g,n,v,value,at_,entry⟩

end

def superName : Identifier := ⟨"ARC_DRIGRP_FS_SUPER".toList,eachChar (by decide),by decide⟩
def fileName : Identifier := ⟨"ARC_DRIGRP_FS_FILE".toList,eachChar (by decide),by decide⟩

theorem tabWhite : ∀ c ∈ ['\t'], c ∈ GroupEnum.whites := eachChar rfl

def tab : White := ⟨['\t'],tabWhite⟩

def alone (name : Identifier) : Argument := ⟨0,name,0⟩
def spaced (name : Identifier) : Argument := ⟨1,name,0⟩

def line (rest : String) (plain : '#' ∉ rest.toList) : Invocation := ⟨noWhite,0,rest.toList,plain⟩

def registered (group : Identifier) (name : String) (chars : (name.toList.all fun c => c ∈ nameChars) = true)
    (starts : name.toList.head?.any (fun c => !c.isDigit) = true) : SourceLine :=
  .registration (line " = \x7b\n" (by decide)) (alone group) (spaced ⟨name.toList,eachChar chars,starts⟩)

def smallTree : Tree where
  file :=
    { before := ["#define ARC_SHARE_DRIVER_INDICES(...) ;\n".toList]
      body :=
        { lines := [
            .enumerator ⟨tab,superName,noWhite,some (noWhite,0,noWhite),some noWhite⟩,
            .enumerator ⟨tab,fileName,noWhite,none,some noWhite⟩]
          names := by decide +kernel
          commas := by decide
          ints := by decide }
      after := ["ARC_SHARE_DRIVER_INDICES(ARC_DRIGRP_FS_SUPER, ARC_DRIGRP_FS_FILE)\n".toList]
      only := by decide +kernel }
  shares := [(line "\n" (by decide),[alone superName,spaced fileName])]
  groups := by decide
  shared := by decide +kernel
  sources := [[registered superName "ext2" (by decide) (by decide)],
    [.other "static int init_ext2();\n".toList (by decide +kernel),registered fileName "ext2" (by decide) (by decide),
      registered fileName "buffer" (by decide) (by decide)]]

theorem smallDrivers : smallTree.drivers =
    [("ARC_DRIGRP_FS_SUPER","ext2"),("ARC_DRIGRP_FS_FILE","buffer"),("ARC_DRIGRP_FS_FILE","ext2")] := by decide +kernel

theorem smallClusters : smallTree.clusters = [["ARC_DRIGRP_FS_SUPER","ARC_DRIGRP_FS_FILE"]] := by decide +kernel

section

local instance ascii : DriverTables.Unicode := ⟨id,id⟩

theorem smallSound : Sound InitResource.files smallTree := by
  have tight (e : GroupEnum.Enumerator) (gap : e.gap = noWhite) : GroupEnum.Tight e := by
    intro _ c mem
    rw [gap] at mem
    cases mem
  refine ⟨?_,⟨rfl,tight _ rfl,rfl,tight _ rfl,trivial⟩,?_,?_,?_,?_,?_,by decide +kernel,?_,?_,?_⟩
  · unfold GroupEnum.Written
    decide +kernel
  · rw [smallDrivers]
    decide +kernel
  · rw [smallDrivers]
    decide +kernel
  · rw [smallClusters]
    exact List.pairwise_singleton _ _
  · rw [smallClusters,smallDrivers]
    intro cluster mem _ h inside
    cases List.mem_singleton.mp mem
    revert h inside
    decide +kernel
  · rw [smallClusters,smallDrivers]
    intro cluster mem g _ n m a b c left _ _
    cases List.mem_singleton.mp mem
    have own : ∀ p ∈ [("ARC_DRIGRP_FS_SUPER","ext2"),("ARC_DRIGRP_FS_FILE","buffer"),("ARC_DRIGRP_FS_FILE","ext2")],
        ("ARC_DRIGRP_FS_FILE",p.2) ∈ [("ARC_DRIGRP_FS_SUPER","ext2"),("ARC_DRIGRP_FS_FILE","buffer"),("ARC_DRIGRP_FS_FILE","ext2")] := by
      decide +kernel
    exact ⟨n,List.mem_cons_self,_,rfl,own _ left⟩
  · rw [smallDrivers]
    decide +kernel
  · rw [smallDrivers]
    decide +kernel
  · rw [smallDrivers]
    decide +kernel

theorem driversBuiltShared : ∃ header source,
    main (fun _ => none) anyOrder smallTree.file.lines smallTree.texts = .ok (header,source) ∧ Dispatches smallTree header source :=
  driversBuilt (fun _ => none) anyOrder smallSound

end

end Kdrivers.DriverBuild
