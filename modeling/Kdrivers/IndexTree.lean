import Mathlib.Data.Nat.Basic
import Mathlib.Data.Option.Basic
import Mathlib.Tactic.Ring
import Mathlib.Tactic.Linarith

/-! Block maps with direct pointers and tables of one, two and three levels, over any
pointer reader. A table holds p pointers and the first d indices are direct. A zero
pointer stands for no block. -/
namespace Kdrivers.IndexTree

inductive Path where
  | direct (i : Nat)
  | single (i : Nat)
  | double (i j : Nat)
  | triple (i j k : Nat)
  deriving DecidableEq, Repr

inductive Level where
  | single
  | double
  | triple
  deriving DecidableEq, Repr

inductive Over : Level → Level → Prop where
  | triple : Over .triple .double
  | double : Over .double .single

structure Roots where
  direct : Nat → Nat
  top : Level → Nat

-- the place the layout gives to index b
def path (d p b : Nat) : Path :=
  if b < d then .direct b
  else if b - d < p then .single (b - d)
  else if b - d - p < p^2 then .double ((b - d - p) / p) ((b - d - p) % p)
  else .triple ((b - d - p - p^2) / p^2) ((b - d - p - p^2) / p % p) ((b - d - p - p^2) % p)

def follow (pointer : Nat) : Option Nat := if pointer = 0 then none else some pointer

-- entry t i is pointer number i of the table in block t
def lookup (roots : Roots) (entry : Nat → Nat → Nat) : Path → Option Nat
  | .direct i => follow (roots.direct i)
  | .single i => do
    let t ← follow (roots.top .single)
    follow (entry t i)
  | .double i j => do
    let t ← follow (roots.top .double)
    let u ← follow (entry t i)
    follow (entry u j)
  | .triple i j k => do
    let t ← follow (roots.top .triple)
    let u ← follow (entry t i)
    let v ← follow (entry u j)
    follow (entry v k)

theorem followSome {pointer n : Nat} : follow pointer = some n ↔ pointer = n ∧ n ≠ 0 := by
  unfold follow
  split
  · rename_i zero
    subst zero
    simp only [reduceCtorEq,false_iff,not_and,ne_eq,not_not]
    exact Eq.symm
  · rename_i nonzero
    simp only [Option.some.injEq]
    exact ⟨fun same => ⟨same,same ▸ nonzero⟩,And.left⟩

@[simp] theorem followZero : follow 0 = none := rfl

theorem followPos {pointer : Nat} (nonzero : pointer ≠ 0) : follow pointer = some pointer := if_neg nonzero

theorem lookupLt {roots : Roots} {entry : Nat → Nat → Nat} {m : Nat} (direct : ∀ i, roots.direct i < m)
    (entries : ∀ t i, entry t i < m) {q : Path} {x : Nat} (found : lookup roots entry q = some x) : x < m := by
  have last {pointer : Nat} (low : pointer < m) (here : follow pointer = some x) : x < m := by
    rw [followSome] at here
    exact here.1 ▸ low
  cases q with
  | direct i => exact last (direct i) found
  | single i =>
    obtain ⟨t,_,here⟩ := Option.bind_eq_some_iff.mp found
    exact last (entries t i) here
  | double i j =>
    obtain ⟨t,_,rest⟩ := Option.bind_eq_some_iff.mp found
    obtain ⟨u,_,here⟩ := Option.bind_eq_some_iff.mp rest
    exact last (entries u j) here
  | triple i j k =>
    obtain ⟨t,_,rest⟩ := Option.bind_eq_some_iff.mp found
    obtain ⟨u,_,rest⟩ := Option.bind_eq_some_iff.mp rest
    obtain ⟨v,_,here⟩ := Option.bind_eq_some_iff.mp rest
    exact last (entries v k) here

def Path.Within (d p : Nat) : Path → Prop
  | .direct i => i < d
  | .single i => i < p
  | .double i j => i < p ∧ j < p
  | .triple i j k => i < p ∧ j < p ∧ k < p

theorem pathWithin {d p b : Nat} (inside : b < d + p + p^2 + p^3) : (path d p b).Within d p := by
  unfold path
  split_ifs with direct single double
  · exact direct
  · exact single
  · have pos : 0 < p := Nat.pos_of_ne_zero (by rintro rfl; simp at double)
    exact ⟨Nat.div_lt_of_lt_mul (by rwa [← sq]),Nat.mod_lt _ pos⟩
  · have pos : 0 < p := Nat.pos_of_ne_zero (by rintro rfl; simp at inside; omega)
    refine ⟨Nat.div_lt_of_lt_mul ?_,Nat.mod_lt _ pos,Nat.mod_lt _ pos⟩
    rw [show p^2 * p = p^3 by ring]
    omega

theorem followCongr {pointer : Nat} {f g : Nat → Option Nat} (same : pointer ≠ 0 → f pointer = g pointer) :
    (follow pointer).bind f = (follow pointer).bind g := by
  unfold follow
  split
  · rfl
  · exact same (by assumption)

theorem lookupCongr {roots : Roots} {entry other : Nat → Nat → Nat} {m d p : Nat}
    (tops : ∀ l, roots.top l ≤ m) (bounded : ∀ t i, other t i ≤ m)
    (same : ∀ t i, t ≤ m → i < p → entry t i = other t i) {q : Path} (within : q.Within d p) :
    lookup roots entry q = lookup roots other q := by
  cases q with
  | direct i => rfl
  | single i =>
    exact followCongr (f := fun t => follow (entry t i)) fun _ => by rw [same _ i (tops _) within]
  | double i j =>
    refine followCongr (f := fun t => (follow (entry t i)).bind fun u => follow (entry u j)) fun _ => ?_
    rw [same _ i (tops _) within.1]
    exact followCongr (f := fun u => follow (entry u j)) fun _ => by rw [same _ j (bounded _ _) within.2]
  | triple i j k =>
    refine followCongr (f := fun t => (follow (entry t i)).bind fun u =>
      (follow (entry u j)).bind fun v => follow (entry v k)) fun _ => ?_
    rw [same _ i (tops _) within.1]
    refine followCongr (f := fun u => (follow (entry u j)).bind fun v => follow (entry v k)) fun _ => ?_
    rw [same _ j (bounded _ _) within.2.1]
    exact followCongr (f := fun v => follow (entry v k)) fun _ => by rw [same _ k (bounded _ _) within.2.2]

inductive Named (roots : Roots) (entry : Nat → Nat → Nat) (p : Nat) : Level → Nat → Prop where
  | top (l : Level) : roots.top l ≠ 0 → Named roots entry p l (roots.top l)
  | entry {upper lower : Level} {t i : Nat} : Over upper lower → Named roots entry p upper t → i < p →
      entry t i ≠ 0 → Named roots entry p lower (entry t i)

def Led (roots : Roots) (entry : Nat → Nat → Nat) (d p x : Nat) : Prop :=
  ∃ q : Path, q.Within d p ∧ lookup roots entry q = some x

theorem ledDirect (roots : Roots) (entry : Nat → Nat → Nat) {d i : Nat} (p : Nat) (low : i < d)
    (nonzero : roots.direct i ≠ 0) : Led roots entry d p (roots.direct i) :=
  ⟨.direct i,low,followPos nonzero⟩

theorem ledLeaf {roots : Roots} {entry : Nat → Nat → Nat} (d : Nat) {p t i : Nat}
    (named : Named roots entry p .single t) (inside : i < p) (nonzero : entry t i ≠ 0) :
    Led roots entry d p (entry t i) := by
  cases named with
  | top _ top => exact ⟨.single i,inside,by simp [lookup,followPos top,followPos nonzero]⟩
  | entry higher named low some =>
    cases higher with
    | double =>
      cases named with
      | top _ top =>
        exact ⟨.double _ i,⟨low,inside⟩,by simp [lookup,followPos top,followPos some,followPos nonzero]⟩
      | entry higher named lower other =>
        cases higher with
        | triple =>
          cases named with
          | top _ top =>
            exact ⟨.triple _ _ i,⟨lower,low,inside⟩,by
              simp [lookup,followPos top,followPos other,followPos some,followPos nonzero]⟩
          | entry higher _ _ _ => cases higher

section NamedTables
variable {roots : Roots} {entry other : Nat → Nat → Nat} {d p : Nat}

theorem lookupNamed (same : ∀ l t i, Named roots entry p l t → i < p → other t i = entry t i) {q : Path}
    (within : q.Within d p) : lookup roots other q = lookup roots entry q := by
  cases q with
  | direct i => rfl
  | single i =>
    exact followCongr (f := fun t => follow (other t i)) fun top => by rw [same _ _ i (.top _ top) within]
  | double i j =>
    refine followCongr (f := fun t => (follow (other t i)).bind fun u => follow (other u j)) fun top => ?_
    have named : Named roots entry p .double (roots.top .double) := .top _ top
    rw [same _ _ i named within.1]
    exact followCongr (f := fun u => follow (other u j)) fun some => by
      rw [same _ _ j (.entry .double named within.1 some) within.2]
  | triple i j k =>
    refine followCongr (f := fun t => (follow (other t i)).bind fun u =>
      (follow (other u j)).bind fun v => follow (other v k)) fun top => ?_
    have named : Named roots entry p .triple (roots.top .triple) := .top _ top
    rw [same _ _ i named within.1]
    refine followCongr (f := fun u => (follow (other u j)).bind fun v => follow (other v k)) fun some => ?_
    have lower := Named.entry .triple named within.1 some
    rw [same _ _ j lower within.2.1]
    exact followCongr (f := fun v => follow (other v k)) fun more => by
      rw [same _ _ k (.entry .double lower within.2.1 more) within.2.2]

theorem namedSame (same : ∀ l t i, Named roots entry p l t → i < p → other t i = entry t i) {l : Level} {t : Nat}
    (named : Named roots other p l t) : Named roots entry p l t := by
  induction named with
  | top l nonzero => exact .top l nonzero
  | entry higher _ inside nonzero ih =>
    rw [same _ _ _ ih inside] at nonzero ⊢
    exact .entry higher ih inside nonzero

theorem ledSame (same : ∀ l t i, Named roots entry p l t → i < p → other t i = entry t i) {x : Nat}
    (led : Led roots other d p x) : Led roots entry d p x := by
  obtain ⟨q,within,found⟩ := led
  rw [lookupNamed same within] at found
  exact ⟨q,within,found⟩

end NamedTables

inductive Slot where
  | direct (i : Nat)
  | top (l : Level)
  | entry (t i : Nat)
  deriving DecidableEq, Repr

def Slot.value (roots : Roots) (entry : Nat → Nat → Nat) : Slot → Nat
  | .direct i => roots.direct i
  | .top l => roots.top l
  | .entry t i => entry t i

def onward (pointer : Nat) (next : Nat → List Slot) : List Slot := if pointer = 0 then [] else next pointer

def met (roots : Roots) (entry : Nat → Nat → Nat) : Path → List Slot
  | .direct i => [.direct i]
  | .single i => .top .single :: onward (roots.top .single) fun t => [.entry t i]
  | .double i j => .top .double :: onward (roots.top .double) fun t =>
      .entry t i :: onward (entry t i) fun u => [.entry u j]
  | .triple i j k => .top .triple :: onward (roots.top .triple) fun t =>
      .entry t i :: onward (entry t i) fun u => .entry u j :: onward (entry u j) fun v => [.entry v k]

section Slots
variable {roots : Roots} {entry : Nat → Nat → Nat}

@[simp] theorem onwardMem {pointer : Nat} {next : Nat → List Slot} {s : Slot} :
    s ∈ onward pointer next ↔ pointer ≠ 0 ∧ s ∈ next pointer := by
  unfold onward
  split <;> simp_all

theorem metLast (s : Slot) : follow (s.value roots entry) = none ↔ ∃ r ∈ [s], r.value roots entry = 0 := by
  simp [follow]

theorem metOnward (s : Slot) {look : Nat → Option Nat} {next : Nat → List Slot}
    (rest : ∀ t, look t = none ↔ ∃ r ∈ next t, r.value roots entry = 0) :
    (follow (s.value roots entry)).bind look = none ↔
      ∃ r ∈ s :: onward (s.value roots entry) next, r.value roots entry = 0 := by
  by_cases zero : s.value roots entry = 0
  · rw [zero]
    exact iff_of_true rfl ⟨s,List.mem_cons_self,zero⟩
  · rw [followPos zero,Option.bind_some,rest]
    simp [zero]

theorem lookupNone (q : Path) : lookup roots entry q = none ↔ ∃ s ∈ met roots entry q, s.value roots entry = 0 := by
  cases q with
  | direct i => exact metLast (.direct i)
  | single i => exact metOnward (.top .single) fun t => metLast (.entry t i)
  | double i j =>
    exact metOnward (.top .double) fun t => metOnward (.entry t i) fun u => metLast (.entry u j)
  | triple i j k =>
    exact metOnward (.top .triple) fun t => metOnward (.entry t i) fun u => metOnward (.entry u j) fun v =>
      metLast (.entry v k)

theorem metNamed {d p : Nat} {q : Path} (within : q.Within d p) {t i : Nat} (read : .entry t i ∈ met roots entry q) :
    (∃ l, Named roots entry p l t) ∧ i < p := by
  cases q with
  | direct a => simp [met] at read
  | single a =>
    simp only [met,List.mem_cons,onwardMem,List.mem_nil_iff,or_false,reduceCtorEq,false_or,Slot.entry.injEq] at read
    obtain ⟨top,rfl,rfl⟩ := read
    exact ⟨⟨_,.top _ top⟩,within⟩
  | double a b =>
    simp only [met,List.mem_cons,onwardMem,List.mem_nil_iff,or_false,reduceCtorEq,false_or,Slot.entry.injEq] at read
    obtain ⟨top,⟨rfl,rfl⟩ | ⟨some,rfl,rfl⟩⟩ := read
    · exact ⟨⟨_,.top _ top⟩,within.1⟩
    · exact ⟨⟨_,.entry .double (.top _ top) within.1 some⟩,within.2⟩
  | triple a b c =>
    simp only [met,List.mem_cons,onwardMem,List.mem_nil_iff,or_false,reduceCtorEq,false_or,Slot.entry.injEq] at read
    obtain ⟨top,⟨rfl,rfl⟩ | ⟨some,⟨rfl,rfl⟩ | ⟨more,rfl,rfl⟩⟩⟩ := read
    · exact ⟨⟨_,.top _ top⟩,within.1⟩
    · exact ⟨⟨_,.entry .triple (.top _ top) within.1 some⟩,within.2.1⟩
    · exact ⟨⟨_,.entry .double (.entry .triple (.top _ top) within.1 some) within.2.1 more⟩,within.2.2⟩

end Slots

/-! Lookup with one table of each level kept from before. -/

abbrev Homes := Level → Option Nat

inductive Result where
  | found (block : Nat) (homes : Homes)
  | stop
  | spill

def Result.block : Result → Option Nat
  | .found block _ => some block
  | .stop => none
  | .spill => none

def topOf (kept : Option Nat) (pointer : Nat) (next : Nat → Result → Prop) (r : Result) : Prop :=
  match kept with
  | some t => next t r
  | none => (pointer = 0 ∧ r = .spill) ∨ (pointer ≠ 0 ∧ next pointer r)

def below (pointer : Nat) (next : Nat → Result → Prop) (r : Result) : Prop :=
  (pointer = 0 ∧ r = .stop) ∨ (pointer ≠ 0 ∧ next pointer r)

def entryOf (reads : Nat → Nat → Nat → Prop) (t i : Nat) (next : Nat → Result → Prop) (r : Result) : Prop :=
  ∃ pointer, reads t i pointer ∧ below pointer next r

/- reads t i pointer: entry i of the table in block t may be read as the pointer. -/
def Resolves (roots : Roots) (reads : Nat → Nat → Nat → Prop) (h : Homes) : Path → Result → Prop
  | .direct i => below (roots.direct i) fun b r => r = .found b h
  | .single i => topOf (h .single) (roots.top .single) fun t =>
      entryOf reads t i fun b r => r = .found b (Function.update h .single (some t))
  | .double i j => topOf (h .double) (roots.top .double) fun t =>
      entryOf reads t i fun u => entryOf reads u j fun b r =>
        r = .found b (Function.update (Function.update h .double (some t)) .single (some u))
  | .triple i j k => topOf (h .triple) (roots.top .triple) fun t =>
      entryOf reads t i fun u => entryOf reads u j fun v => entryOf reads v k fun b r =>
        r = .found b (Function.update (Function.update (Function.update h .triple (some t))
          .double (some u)) .single (some v))

def Level.rank : Level → Nat
  | .single => 1
  | .double => 2
  | .triple => 3

def Path.rank : Path → Nat
  | .direct _ => 0
  | .single _ => 1
  | .double _ _ => 2
  | .triple _ _ _ => 3

def RootedFrom (roots : Roots) (n : Nat) (h : Homes) : Prop :=
  ∀ l, n ≤ l.rank → ∀ t, h l = some t → t = roots.top l ∧ t ≠ 0

theorem rootedMono {roots : Roots} {n m : Nat} {h : Homes} (rooted : RootedFrom roots n h) (later : n ≤ m) :
    RootedFrom roots m h := fun l reach => rooted l (later.trans reach)

theorem rootedNone (roots : Roots) (n : Nat) : RootedFrom roots n fun _ => none := by
  rintro l reach t ⟨⟩

section Resolution
variable {roots : Roots} {reads : Nat → Nat → Nat → Prop} {h : Homes} {r : Result}

def Unique (next : Nat → Result → Prop) : Prop := ∀ n a b, next n a → next n b → a = b

theorem foundUnique (f : Nat → Result) : Unique fun n r => r = f n := fun _ _ _ left right => left.trans right.symm

theorem guardedUnique {pointer : Nat} {next : Nat → Result → Prop} {otherwise a b : Result} (unique : Unique next)
    (left : (pointer = 0 ∧ a = otherwise) ∨ (pointer ≠ 0 ∧ next pointer a))
    (right : (pointer = 0 ∧ b = otherwise) ∨ (pointer ≠ 0 ∧ next pointer b)) : a = b := by
  rcases left with ⟨zero,rfl⟩ | ⟨nonzero,left⟩
  · rcases right with ⟨_,rfl⟩ | ⟨other,_⟩
    · rfl
    · exact absurd zero other
  · rcases right with ⟨zero,_⟩ | ⟨_,right⟩
    · exact absurd zero nonzero
    · exact unique _ _ _ left right

theorem belowUnique {pointer : Nat} {next : Nat → Result → Prop} {a b : Result} (unique : Unique next)
    (left : below pointer next a) (right : below pointer next b) : a = b :=
  guardedUnique unique left right

theorem topUnique {kept : Option Nat} {pointer : Nat} {next : Nat → Result → Prop} {a b : Result}
    (unique : Unique next) (left : topOf kept pointer next a) (right : topOf kept pointer next b) :
    a = b := by
  cases kept with
  | some t => exact unique t a b left right
  | none => exact guardedUnique unique left right

theorem entryUnique (single : ∀ t i a b, reads t i a → reads t i b → a = b) (i : Nat)
    {next : Nat → Nat → Result → Prop} (unique : ∀ t, Unique (next t)) :
    Unique fun t => entryOf reads t i (next t) := by
  rintro t a b ⟨p,readP,left⟩ ⟨q,readQ,right⟩
  cases single t i p q readP readQ
  exact belowUnique (unique t) left right

theorem resolvesUnique (single : ∀ t i a b, reads t i a → reads t i b → a = b) {q : Path} {a b : Result}
    (left : Resolves roots reads h q a) (right : Resolves roots reads h q b) : a = b := by
  cases q with
  | direct i => exact belowUnique (foundUnique fun n => .found n h) left right
  | single i => exact topUnique (entryUnique single i fun _ => foundUnique _) left right
  | double i j =>
    exact topUnique (entryUnique single i fun _ => entryUnique single j fun _ => foundUnique _) left right
  | triple i j k =>
    exact topUnique (entryUnique single i fun _ => entryUnique single j fun _ => entryUnique single k
      fun _ => foundUnique _) left right

def Follows (look : Nat → Option Nat) (next : Nat → Result → Prop) : Prop :=
  ∀ n r, next n r → look n = r.block

theorem foundFollows (g : Nat → Homes) : Follows some fun n r => r = .found n (g n) := by
  rintro n r rfl
  rfl

theorem belowFollow {pointer : Nat} {next : Nat → Result → Prop} {look : Nat → Option Nat}
    (same : Follows look next) (led : below pointer next r) : (follow pointer).bind look = r.block := by
  rcases led with ⟨rfl,rfl⟩ | ⟨nonzero,led⟩
  · rfl
  · rw [followPos nonzero]
    exact same pointer r led

theorem entryFollow {entry : Nat → Nat → Nat} (read : ∀ t i pointer, reads t i pointer → pointer = entry t i)
    (i : Nat) {next : Nat → Nat → Result → Prop} {look : Nat → Option Nat} (same : ∀ t, Follows look (next t)) :
    Follows (fun t => (follow (entry t i)).bind look) fun t => entryOf reads t i (next t) := by
  rintro t r ⟨pointer,here,led⟩
  cases read t i pointer here
  exact belowFollow (same t) led

theorem topFollow {l : Level} {n : Nat} (rooted : RootedFrom roots n h) (reach : n ≤ l.rank)
    {next : Nat → Result → Prop} {look : Nat → Option Nat} (same : Follows look next)
    (led : topOf (h l) (roots.top l) next r) : (follow (roots.top l)).bind look = r.block := by
  cases kept : h l with
  | some t =>
    rw [kept] at led
    obtain ⟨rfl,nonzero⟩ := rooted l reach t kept
    rw [followPos nonzero]
    exact same _ r led
  | none =>
    rw [kept] at led
    rcases led with ⟨zero,rfl⟩ | ⟨nonzero,led⟩
    · rw [zero]
      rfl
    · rw [followPos nonzero]
      exact same _ r led

theorem resolvesLookup {entry : Nat → Nat → Nat} (read : ∀ t i pointer, reads t i pointer → pointer = entry t i)
    {q : Path} (rooted : 0 < q.rank → RootedFrom roots q.rank h) (led : Resolves roots reads h q r) :
    lookup roots entry q = r.block := by
  cases q with
  | direct i =>
    have bound : lookup roots entry (.direct i) = (follow (roots.direct i)).bind some := by simp [lookup]
    rw [bound]
    exact belowFollow (foundFollows fun _ => h) led
  | single i =>
    have bound : lookup roots entry (.single i) = (follow (roots.top .single)).bind fun t =>
        (follow (entry t i)).bind some := by simp [lookup]
    rw [bound]
    exact topFollow (rooted (Nat.succ_pos _)) le_rfl (entryFollow read i fun _ => foundFollows _) led
  | double i j =>
    have bound : lookup roots entry (.double i j) = (follow (roots.top .double)).bind fun t =>
        (follow (entry t i)).bind fun u => (follow (entry u j)).bind some := by simp [lookup]
    rw [bound]
    exact topFollow (rooted (Nat.succ_pos _)) le_rfl
      (entryFollow read i fun _ => entryFollow read j fun _ => foundFollows _) led
  | triple i j k =>
    have bound : lookup roots entry (.triple i j k) = (follow (roots.top .triple)).bind fun t =>
        (follow (entry t i)).bind fun u => (follow (entry u j)).bind fun v =>
          (follow (entry v k)).bind some := by simp [lookup]
    rw [bound]
    exact topFollow (rooted (Nat.succ_pos _)) le_rfl (entryFollow read i fun _ => entryFollow read j fun _ =>
      entryFollow read k fun _ => foundFollows _) led

end Resolution

/-! The pointers of the roots become homes only as the tables of their own level. -/

theorem topRooted {roots : Roots} {l : Level} {n : Nat} {h : Homes} {r : Result} (rooted : RootedFrom roots n h)
    (reach : n ≤ l.rank) {next : Nat → Result → Prop} (led : topOf (h l) (roots.top l) next r)
    (full : r ≠ .spill) : roots.top l ≠ 0 ∧ next (roots.top l) r := by
  cases kept : h l with
  | some t =>
    rw [kept] at led
    obtain ⟨rfl,nonzero⟩ := rooted l reach t kept
    exact ⟨nonzero,led⟩
  | none =>
    rw [kept] at led
    rcases led with ⟨_,spilled⟩ | led
    · exact absurd spilled full
    · exact led

theorem entryFound {reads : Nat → Nat → Nat → Prop} {t i b : Nat} {next : Nat → Result → Prop} {h : Homes}
    (led : entryOf reads t i next (.found b h)) : ∃ u, u ≠ 0 ∧ next u (.found b h) := by
  obtain ⟨u,_,⟨_,other⟩ | led⟩ := led
  · cases other
  · exact ⟨u,led⟩

theorem entryNoSpill {reads : Nat → Nat → Nat → Prop} {t i : Nat} {next : Nat → Result → Prop}
    (led : entryOf reads t i next .spill) : ∃ u, next u .spill := by
  obtain ⟨u,_,⟨_,other⟩ | ⟨_,led⟩⟩ := led
  · cases other
  · exact ⟨u,led⟩

theorem topSpill {kept : Option Nat} {pointer : Nat} {next : Nat → Result → Prop}
    (led : topOf kept pointer next .spill) (never : ∀ t, ¬ next t .spill) : kept = none ∧ pointer = 0 := by
  cases kept with
  | some t => exact absurd led (never t)
  | none =>
    rcases led with ⟨zero,_⟩ | ⟨_,led⟩
    · exact ⟨rfl,zero⟩
    · exact absurd led (never pointer)

theorem resolvesSpill {roots : Roots} {reads : Nat → Nat → Nat → Prop} {h : Homes} {q : Path}
    (led : Resolves roots reads h q .spill) : ∃ l, l.rank = q.rank ∧ h l = none ∧ roots.top l = 0 := by
  have leaf {t i : Nat} {after : Homes} : ¬ entryOf reads t i (fun b r => r = .found b after) .spill := by
    intro led
    obtain ⟨_,other⟩ := entryNoSpill led
    cases other
  cases q with
  | direct i =>
    rcases led with ⟨_,other⟩ | ⟨_,other⟩
    · cases other
    · cases other
  | single i => exact ⟨.single,rfl,topSpill led fun t => leaf⟩
  | double i j =>
    refine ⟨.double,rfl,topSpill led fun t led => ?_⟩
    obtain ⟨u,led⟩ := entryNoSpill led
    exact leaf led
  | triple i j k =>
    refine ⟨.triple,rfl,topSpill led fun t led => ?_⟩
    obtain ⟨u,led⟩ := entryNoSpill led
    obtain ⟨v,led⟩ := entryNoSpill led
    exact leaf led

theorem resolvesRooted {roots : Roots} {reads : Nat → Nat → Nat → Prop} {h after : Homes} {q : Path} {b : Nat}
    (rooted : RootedFrom roots q.rank h) (led : Resolves roots reads h q (.found b after)) :
    RootedFrom roots q.rank after := by
  cases q with
  | direct i =>
    rcases led with ⟨_,other⟩ | ⟨_,same⟩
    · cases other
    · cases same
      exact rooted
  | single i =>
    obtain ⟨nonzero,led⟩ := topRooted rooted (l := .single) le_rfl led nofun
    obtain ⟨_,_,same⟩ := entryFound led
    cases same
    rintro l reach t held
    cases l with
    | single => cases held; exact ⟨rfl,nonzero⟩
    | double => exact rooted .double reach t held
    | triple => exact rooted .triple reach t held
  | double i j =>
    obtain ⟨nonzero,led⟩ := topRooted rooted (l := .double) le_rfl led nofun
    obtain ⟨_,_,led⟩ := entryFound led
    obtain ⟨_,_,same⟩ := entryFound led
    cases same
    rintro l reach t held
    cases l with
    | single => exact absurd reach (by simp [Path.rank,Level.rank])
    | double => cases held; exact ⟨rfl,nonzero⟩
    | triple => exact rooted .triple reach t held
  | triple i j k =>
    obtain ⟨nonzero,led⟩ := topRooted rooted (l := .triple) le_rfl led nofun
    obtain ⟨_,_,led⟩ := entryFound led
    obtain ⟨_,_,led⟩ := entryFound led
    obtain ⟨_,_,same⟩ := entryFound led
    cases same
    rintro l reach t held
    cases l with
    | single => exact absurd reach (by simp [Path.rank,Level.rank])
    | double => exact absurd reach (by simp [Path.rank,Level.rank])
    | triple => cases held; exact ⟨rfl,nonzero⟩

def loneRoots (q : Path) : Roots where
  direct i := if q = .direct i then 1 else 0
  top l := match q, l with
    | .single _, .single => 1
    | .double _ _, .double => 1
    | .triple _ _ _, .triple => 1
    | _, _ => 0

def loneEntry (q : Path) (t i : Nat) : Nat := match q with
  | .direct _ => 0
  | .single a => if t = 1 ∧ i = a then 2 else 0
  | .double a b => if t = 1 ∧ i = a then 2 else if t = 2 ∧ i = b then 3 else 0
  | .triple a b c => if t = 1 ∧ i = a then 2 else if t = 2 ∧ i = b then 3
      else if t = 3 ∧ i = c then 4 else 0

theorem loneEntryLe (q : Path) (t i : Nat) : loneEntry q t i ≤ 4 := by
  unfold loneEntry
  cases q with
  | direct a => exact Nat.zero_le 4
  | single a => dsimp only; split_ifs <;> decide
  | double a b => dsimp only; split_ifs <;> decide
  | triple a b c => dsimp only; split_ifs <;> decide

theorem loneFound (q : Path) : (lookup (loneRoots q) (loneEntry q) q).isSome := by
  cases q <;> simp [lookup,loneRoots,loneEntry,follow]

theorem loneOther {q r : Path} (apart : r ≠ q) : lookup (loneRoots q) (loneEntry q) r = none := by
  cases r with
  | direct b =>
    have zero : (loneRoots q).direct b = 0 := if_neg fun same => apart same.symm
    rw [lookup,zero,followZero]
  | single b => cases q with
    | single a =>
      have other : b ≠ a := by rintro rfl; exact apart rfl
      simp [lookup,loneRoots,loneEntry,follow,other]
    | direct _ => rfl
    | double _ _ => rfl
    | triple _ _ _ => rfl
  | double b c => cases q with
    | double a d =>
      by_cases first : b = a
      · have other : c ≠ d := by rintro rfl; exact apart (first ▸ rfl)
        simp [lookup,loneRoots,loneEntry,follow,first,other]
      · simp [lookup,loneRoots,loneEntry,follow,first]
    | direct _ => rfl
    | single _ => rfl
    | triple _ _ _ => rfl
  | triple b c e => cases q with
    | triple a d f =>
      by_cases first : b = a
      · by_cases second : c = d
        · have other : e ≠ f := by rintro rfl; exact apart (first ▸ second ▸ rfl)
          simp [lookup,loneRoots,loneEntry,follow,first,second,other]
        · simp [lookup,loneRoots,loneEntry,follow,first,second]
      · simp [lookup,loneRoots,loneEntry,follow,first]
    | direct _ => rfl
    | single _ => rfl
    | double _ _ => rfl

end Kdrivers.IndexTree
