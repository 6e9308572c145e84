import Mathlib.Logic.Relation
import Kdrivers.Bytes
import Kdrivers.NvmeCommandSets
import Kdrivers.NvmeQueue

/-! The reset of a controller (reset_controller, create_admin_qpair and init_nvme_pci in pci.c)
while the controller runs beside it: CSTS.RDY follows CC.EN whenever the controller likes. -/
namespace Kdrivers.NvmeReset
open Bytes BitFields NvmeCommandSets NvmeQueue

structure Registers where
  cap : BitVec 64
  cc : BitVec 32
  csts : BitVec 32
  aqa : BitVec 32
  asq : Nat
  acq : Nat

inductive Action where
  | cc (value shift bits : Nat)
  | aqa (value shift bits : Nat)
  | asq (address : Nat)
  | acq (address : Nat)
  | waitReady (value : Bool)
  deriving DecidableEq, Repr

def Action.apply (m : Masked) (r : Registers) : Action → Registers
  | .cc value shift bits => { r with cc := m.write r.cc value shift (2^bits - 1) }
  | .aqa value shift bits => { r with aqa := m.write r.aqa value shift (2^bits - 1) }
  | .asq address => { r with asq := address }
  | .acq address => { r with acq := address }
  | .waitReady _ => r

def Action.goes (m : Masked) (r : Registers) : Action → Prop
  | .waitReady value => m.read r.csts 0 1 = value.toNat
  | _ => True

/- What the allocators answer create_admin_qpair, and the physical address of a page. -/
structure Memory where
  queues : Option Nat
  sub : Bool
  comp : Bool
  phys : Nat → Nat

def createAdminQpair (mem : Memory) (qsize : Nat) : Int × List Action := match mem.queues with
  | none => (-1,[])
  | some queues =>
    if mem.sub = false then (-2,[])
    else if mem.comp = false then (-3,[])
    else (0,[.asq (mem.phys queues),.acq (add64 (mem.phys queues) qsize),.aqa (driverSize.sub - 1) 0 12,
      .aqa (driverSize.comp - 1) 16 12])

-- CC.CSS by the bits of CAP.CSS
def cssActions (capCss : Nat) : List Action :=
  (if (capCss >>> 7) &&& 1 ≠ 0 then [.cc 0b111 4 3] else []) ++
  (if (capCss >>> 6) &&& 1 ≠ 0 then [.cc 0b110 4 3] else []) ++
  (if (capCss >>> 6) &&& 1 = 0 ∧ (capCss >>> 0) &&& 1 = 1 then [.cc 0b000 4 3] else [])

def disable : List Action := [.cc 0 0 1,.waitReady false]

def configure (capCss : Nat) : List Action := cssActions capCss ++ [.cc 0 7 4,.cc 0 11 3,.cc 1 0 1,.waitReady true]

def resetController (mem : Memory) (capCss : Nat) : Int × List Action := match createAdminQpair mem 0x1000 with
  | (0,queues) => (0,disable ++ (queues ++ configure capCss))
  | (_,queues) => (-2,disable ++ queues)

def initNvmePci (mem : Memory) (capCss : Nat) : Int × List Action := match resetController mem capCss with
  | (0,actions) => (0,actions ++ [.cc 6 16 4,.cc 4 20 4])
  | (_,actions) => (-4,actions)

structure Run where
  regs : Registers
  rest : List Action

inductive Step (m : Masked) : Run → Run → Prop where
  | driver {r : Registers} {a : Action} {rest : List Action} (goes : a.goes m r) : Step m ⟨r,a::rest⟩ ⟨a.apply m r,rest⟩
  | controller {r : Registers} {rest : List Action} (csts : BitVec 32)
      (follows : csts.getLsbD 0 = r.csts.getLsbD 0 ∨ csts.getLsbD 0 = r.cc.getLsbD 0) :
      Step m ⟨r,rest⟩ ⟨{ r with csts := csts },rest⟩

def Registers.enabled (r : Registers) : Bool := r.cc.getLsbD 0
def Registers.ready (r : Registers) : Bool := r.csts.getLsbD 0

/- The registers and fields that only a stopped controller takes: AQA, ASQ, ACQ and the bits
of CC from CSS to AMS. -/
def SameSetUp (r s : Registers) : Prop :=
  s.aqa = r.aqa ∧ s.asq = r.asq ∧ s.acq = r.acq ∧ ∀ i, 4 ≤ i → i < 14 → s.cc.getLsbD i = r.cc.getLsbD i

/-! How far the controller is known to have come. -/

inductive Phase where
  | unknown | stopping | stopped | starting | started
  deriving DecidableEq, Repr

def Phase.Holds (r : Registers) : Phase → Prop
  | .unknown => True
  | .stopping => r.enabled = false
  | .stopped => r.enabled = false ∧ r.ready = false
  | .starting => r.enabled = true
  | .started => r.enabled = true ∧ r.ready = true

/- The phase after an action, none where the protocol forbids it. -/
def Phase.after (p : Phase) : Action → Option Phase
  | .cc value shift bits =>
    if shift = 0 ∧ bits = 1 then
      if value = 0 then some .stopping else if value = 1 ∧ p = .stopped then some .starting else none
    else if 14 ≤ shift then some p
    else if 4 ≤ shift ∧ p = .stopped then some p else none
  | .aqa _ _ _ => if p = .stopped then some p else none
  | .asq _ => if p = .stopped then some p else none
  | .acq _ => if p = .stopped then some p else none
  | .waitReady false => if p = .stopping then some .stopped else none
  | .waitReady true => if p = .starting then some .started else none

def finish : Phase → List Action → Option Phase
  | p,[] => some p
  | p,a::rest => (p.after a).bind fun next => finish next rest

section
variable {m : Masked}

theorem readyBit (r : Registers) (value : Bool) : m.read r.csts 0 1 = value.toNat ↔ r.ready = value := by
  rw [readBit,Registers.ready]
  cases value <;> cases r.csts.getLsbD 0 <;> simp

theorem highWrite (r : Registers) (value : Nat) {shift bits i : Nat} (low : i < shift) (inside : i < 32) :
    (m.write r.cc value shift (2^bits - 1)).getLsbD i = r.cc.getLsbD i := by
  rw [writeField m r.cc value shift bits inside,if_neg (by omega)]

theorem actionKeeps {p next : Phase} {a : Action} (allowed : p.after a = some next) {r : Registers} (holds : p.Holds r)
    (goes : a.goes m r) : next.Holds (a.apply m r) ∧ (p = .stopped ∨ SameSetUp r (a.apply m r)) := by
  cases a with
  | cc value shift bits =>
    simp only [Phase.after] at allowed
    split at allowed
    · rename_i whole
      obtain ⟨rfl,rfl⟩ := whole
      have bit : (Action.apply m r (.cc value 0 1)).enabled = decide (value % 2 = 1) := writeBit m r.cc value (by decide)
      have others : SameSetUp r (Action.apply m r (.cc value 0 1)) :=
        ⟨rfl,rfl,rfl,fun i low _ => writeOther m r.cc value (by omega)⟩
      split at allowed
      · rename_i zero
        subst zero
        cases allowed
        exact ⟨bit,.inr others⟩
      · split at allowed
        · rename_i one
          obtain ⟨rfl,rfl⟩ := one
          cases allowed
          exact ⟨bit,.inl rfl⟩
        · cases allowed
    · split at allowed
      · rename_i high
        cases allowed
        have enabled : (Action.apply m r (.cc value shift bits)).enabled = r.enabled :=
          highWrite r value (by omega) (by decide)
        refine ⟨?_,.inr ⟨rfl,rfl,rfl,fun i _ below => highWrite r value (by omega) (by omega)⟩⟩
        cases p with
        | unknown => trivial
        | stopping => exact enabled.trans holds
        | stopped => exact ⟨enabled.trans holds.1,holds.2⟩
        | starting => exact enabled.trans holds
        | started => exact ⟨enabled.trans holds.1,holds.2⟩
      · split at allowed
        · rename_i quiet
          obtain ⟨low,rfl⟩ := quiet
          cases allowed
          have enabled : (Action.apply m r (.cc value shift bits)).enabled = r.enabled :=
            highWrite r value (by omega) (by decide)
          exact ⟨⟨enabled.trans holds.1,holds.2⟩,.inl rfl⟩
        · cases allowed
  | aqa value shift bits =>
    simp only [Phase.after] at allowed
    split at allowed
    · rename_i quiet
      subst quiet
      cases allowed
      exact ⟨holds,.inl rfl⟩
    · cases allowed
  | asq address =>
    simp only [Phase.after] at allowed
    split at allowed
    · rename_i quiet
      subst quiet
      cases allowed
      exact ⟨holds,.inl rfl⟩
    · cases allowed
  | acq address =>
    simp only [Phase.after] at allowed
    split at allowed
    · rename_i quiet
      subst quiet
      cases allowed
      exact ⟨holds,.inl rfl⟩
    · cases allowed
  | waitReady value =>
    have seen := (readyBit r value).mp goes
    cases value with
    | false =>
      simp only [Phase.after] at allowed
      split at allowed
      · rename_i waiting
        subst waiting
        cases allowed
        exact ⟨⟨holds,seen⟩,.inr ⟨rfl,rfl,rfl,fun _ _ _ => rfl⟩⟩
      · cases allowed
    | true =>
      simp only [Phase.after] at allowed
      split at allowed
      · rename_i waiting
        subst waiting
        cases allowed
        exact ⟨⟨holds,seen⟩,.inr ⟨rfl,rfl,rfl,fun _ _ _ => rfl⟩⟩
      · cases allowed

theorem controllerKeeps {p : Phase} {r : Registers} {csts : BitVec 32} (holds : p.Holds r)
    (follows : csts.getLsbD 0 = r.csts.getLsbD 0 ∨ csts.getLsbD 0 = r.cc.getLsbD 0) : p.Holds { r with csts := csts } := by
  have keeps (value : Bool) (enabled : r.enabled = value) (ready : r.ready = value) : csts.getLsbD 0 = value := by
    obtain still | moved := follows
    · exact still.trans ready
    · exact moved.trans enabled
  cases p with
  | unknown => trivial
  | stopping => exact holds
  | stopped => exact ⟨holds.1,keeps false holds.1 holds.2⟩
  | starting => exact holds
  | started => exact ⟨holds.1,keeps true holds.1 holds.2⟩

structure Keeps (last : Phase) (run : Run) : Prop where
  phase : ∃ p : Phase, p.Holds run.regs ∧ finish p run.rest = some last

theorem finishStep {p last : Phase} {a : Action} {rest : List Action} (done : finish p (a::rest) = some last) :
    ∃ next, p.after a = some next ∧ finish next rest = some last := Option.bind_eq_some_iff.mp done

theorem stepKeeps {last : Phase} {run next : Run} (keeps : Keeps last run) (step : Step m run next) :
    Keeps last next ∧ ((run.regs.enabled = false ∧ run.regs.ready = false) ∨ SameSetUp run.regs next.regs) := by
  obtain ⟨p,holds,done⟩ := keeps
  cases step with
  | driver goes =>
    obtain ⟨next,allowed,done⟩ := finishStep done
    obtain ⟨later,quiet⟩ := actionKeeps allowed holds goes
    exact ⟨⟨next,later,done⟩,quiet.imp_left fun stopped => by subst stopped; exact holds⟩
  | controller csts follows =>
    exact ⟨⟨p,controllerKeeps holds follows,done⟩,.inr ⟨rfl,rfl,rfl,fun _ _ _ => rfl⟩⟩

theorem runKeeps {last : Phase} {run now : Run} (keeps : Keeps last run) (reach : Relation.ReflTransGen (Step m) run now) :
    Keeps last now := by
  induction reach with
  | refl => exact keeps
  | tail _ step ih => exact (stepKeeps ih step).1

theorem goesOn {p : Phase} {a : Action} (allowed : (p.after a).isSome) {r : Registers} (holds : p.Holds r) : ∃ csts,
    (csts.getLsbD 0 = r.csts.getLsbD 0 ∨ csts.getLsbD 0 = r.cc.getLsbD 0) ∧ a.goes m { r with csts := csts } := by
  cases a with
  | cc value shift bits => exact ⟨r.csts,.inl rfl,trivial⟩
  | aqa value shift bits => exact ⟨r.csts,.inl rfl,trivial⟩
  | asq address => exact ⟨r.csts,.inl rfl,trivial⟩
  | acq address => exact ⟨r.csts,.inl rfl,trivial⟩
  | waitReady value =>
    have enabled : r.enabled = value := by
      cases value with
      | false =>
        have waiting : p = .stopping := by
          by_contra other
          rw [Phase.after,if_neg other] at allowed
          cases allowed
        subst waiting
        exact holds
      | true =>
        have waiting : p = .starting := by
          by_contra other
          rw [Phase.after,if_neg other] at allowed
          cases allowed
        subst waiting
        exact holds
    have bit : (BitVec.ofNat 32 value.toNat).getLsbD 0 = value := by cases value <;> decide
    exact ⟨BitVec.ofNat 32 value.toNat,.inr (bit.trans enabled.symm),(readyBit _ value).mpr bit⟩

theorem finishCss (capCss : Nat) (rest : List Action) :
    finish .stopped (cssActions capCss ++ rest) = finish .stopped rest := by
  unfold cssActions
  split_ifs <;> rfl

theorem finishAppend (p : Phase) (first rest : List Action) :
    finish p (first ++ rest) = (finish p first).bind fun q => finish q rest := by
  induction first generalizing p with
  | nil => rfl
  | cons a first ih =>
    rw [List.cons_append,finish,finish,Option.bind_assoc]
    exact congrArg _ (funext fun q => ih q)

def Memory.given (mem : Memory) : Bool := mem.queues.isSome && mem.sub && mem.comp

theorem initPhases (mem : Memory) (capCss : Nat) : finish .unknown (initNvmePci mem capCss).2 =
    some (if mem.given then .started else .stopped) ∧ (initNvmePci mem capCss).1 = if mem.given then 0 else -4 := by
  obtain ⟨queues,sub,comp,phys⟩ := mem
  cases queues with
  | none => exact ⟨rfl,rfl⟩
  | some queues =>
    cases sub with
    | false => exact ⟨rfl,rfl⟩
    | true =>
      cases comp with
      | false => exact ⟨rfl,rfl⟩
      | true =>
        refine ⟨?_,rfl⟩
        change finish .unknown ((disable ++ ([Action.asq (phys queues),.acq (add64 (phys queues) 0x1000),.aqa 63 0 12,
          .aqa 255 16 12] ++ (cssActions capCss ++ _))) ++ _) = _
        rw [finishAppend,finishAppend .unknown disable]
        change Option.bind (finish .stopped ([Action.asq (phys queues),.acq (add64 (phys queues) 0x1000),.aqa 63 0 12,
          .aqa 255 16 12] ++ (cssActions capCss ++ _))) _ = _
        rw [finishAppend]
        change Option.bind (finish .stopped (cssActions capCss ++ _)) _ = _
        rw [finishCss]
        rfl

variable (m) in
def started (mem : Memory) (r : Registers) : Run := ⟨r,(initNvmePci mem (m.read r.cap 37 0xFF)).2⟩

theorem canGoOn {last : Phase} {run : Run} (keeps : Keeps last run) (more : run.rest ≠ []) : ∃ csts next,
    Step m run ⟨{ run.regs with csts := csts },run.rest⟩ ∧ Step m ⟨{ run.regs with csts := csts },run.rest⟩ next ∧
      next.rest.length < run.rest.length := by
  obtain ⟨regs,rest⟩ := run
  cases rest with
  | nil => exact absurd rfl more
  | cons a rest =>
    obtain ⟨p,holds,done⟩ := keeps
    obtain ⟨next,allowed,_⟩ := finishStep done
    obtain ⟨csts,follows,goes⟩ := goesOn (m := m) (by rw [allowed]; rfl) holds
    exact ⟨csts,_,.controller csts follows,.driver goes,Nat.lt_succ_self _⟩

theorem canEnd {last : Phase} {run : Run} (keeps : Keeps last run) :
    ∃ after, Relation.ReflTransGen (Step m) run ⟨after,[]⟩ := by
  induction left : run.rest.length using Nat.strong_induction_on generalizing run with
  | _ n ih =>
    by_cases spent : run.rest = []
    · refine ⟨run.regs,?_⟩
      rw [← spent]
    · obtain ⟨csts,next,first,second,less⟩ := canGoOn (m := m) keeps spent
      obtain ⟨after,reach⟩ := ih _ (by omega) (stepKeeps (stepKeeps keeps first).1 second).1 rfl
      exact ⟨after,(Relation.ReflTransGen.head second reach).head first⟩

/-- In every interleaving with the controller, the queues, their sizes and the fields of CC that
a stopped controller takes change only while EN and RDY are both clear; and no wait is for ever:
the controller can come to a state in which the driver goes on. -/
theorem resetOrderly (mem : Memory) (r : Registers) {run : Run}
    (reach : Relation.ReflTransGen (Step m) (started m mem r) run) :
    (∀ next, Step m run next → (run.regs.enabled = false ∧ run.regs.ready = false) ∨ SameSetUp run.regs next.regs) ∧
    (run.rest ≠ [] → ∃ csts next, Step m run ⟨{ run.regs with csts := csts },run.rest⟩ ∧
      Step m ⟨{ run.regs with csts := csts },run.rest⟩ next ∧ next.rest.length < run.rest.length) := by
  have keeps := runKeeps ⟨.unknown,trivial,(initPhases mem _).1⟩ reach
  exact ⟨fun next step => (stepKeeps keeps step).2,canGoOn keeps⟩

def applied (m : Masked) (actions : List Action) (r : Registers) : Registers := actions.foldl (Action.apply m) r

def settled (r : Registers) : Registers := { r with csts := 0 }

theorem applySettled (r : Registers) (csts : BitVec 32) (a : Action) :
    a.apply m { r with csts := csts } = { a.apply m r with csts := csts } := by cases a <;> rfl

theorem appliedSettled (actions : List Action) (r : Registers) (csts : BitVec 32) :
    settled (applied m actions { r with csts := csts }) = settled (applied m actions r) := by
  induction actions generalizing r with
  | nil => rfl
  | cons a rest ih =>
    change settled (applied m rest (a.apply m { r with csts := csts })) = settled (applied m rest (a.apply m r))
    rw [applySettled]
    exact ih (a.apply m r)

theorem runSettles {run now : Run} (reach : Relation.ReflTransGen (Step m) run now) :
    settled (applied m now.rest now.regs) = settled (applied m run.rest run.regs) := by
  induction reach with
  | refl => rfl
  | tail _ step ih =>
    cases step with
    | driver _ => exact ih
    | controller csts _ => exact (appliedSettled _ _ csts).trans ih

def ccAfter (m : Masked) (actions : List Action) (cc : BitVec 32) : BitVec 32 := actions.foldl
  (fun cc a => match a with
    | .cc value shift bits => m.write cc value shift (2^bits - 1)
    | _ => cc) cc

theorem appliedCc (actions : List Action) (r : Registers) : (applied m actions r).cc = ccAfter m actions r.cc := by
  induction actions generalizing r with
  | nil => rfl
  | cons a rest ih =>
    change (applied m rest (a.apply m r)).cc = _
    rw [ih]
    cases a <;> rfl

theorem appliedCap (actions : List Action) (r : Registers) : (applied m actions r).cap = r.cap := by
  induction actions generalizing r with
  | nil => rfl
  | cons a rest ih =>
    change (applied m rest (a.apply m r)).cap = _
    rw [ih]
    cases a <;> rfl

structure Completed (m : Masked) (mem : Memory) (before after : Registers) : Prop where
  queues : ∃ queues, mem.queues = some queues ∧ after.asq = mem.phys queues ∧ after.acq = add64 (mem.phys queues) 0x1000
  sizes : m.read after.aqa 0 (2^12 - 1) = 63 ∧ m.read after.aqa 16 (2^12 - 1) = 255
  programmed : (⟨after.cap,after.cc⟩ : CtrlProps) = programmed m ⟨before.cap,before.cc⟩
  running : after.enabled = true ∧ after.ready = true

structure GivenUp (m : Masked) (before after : Registers) : Prop where
  queues : after.asq = before.asq ∧ after.acq = before.acq ∧ after.aqa = before.aqa
  programmed : (⟨after.cap,after.cc⟩ : CtrlProps) = (NvmeCommandSets.resetController m false ⟨before.cap,before.cc⟩).2
  stopped : after.enabled = false ∧ after.ready = false

theorem ccAppend (first rest : List Action) (cc : BitVec 32) :
    ccAfter m (first ++ rest) cc = ccAfter m rest (ccAfter m first cc) := List.foldl_append

theorem ccProgrammed (capCss : Nat) (cc : BitVec 32) : ccAfter m (disable ++ (cssActions capCss ++
      [.cc 0 7 4,.cc 0 11 3,.cc 1 0 1,.waitReady true])) cc =
    let cc := m.write cc 0 0 1
    let cc := if (capCss >>> 7) &&& 1 ≠ 0 then m.write cc 0b111 4 0b111 else cc
    let cc := if (capCss >>> 6) &&& 1 ≠ 0 then m.write cc 0b110 4 0b111 else cc
    let cc := if (capCss >>> 6) &&& 1 = 0 ∧ (capCss >>> 0) &&& 1 = 1 then m.write cc 0b000 4 0b111 else cc
    m.write (m.write (m.write cc 0 7 0b1111) 0 11 0b111) 1 0 1 := by
  unfold cssActions
  split_ifs <;> rfl

theorem configured (capCss queues : Nat) (phys : Nat → Nat) (r : Registers) :
    let actions := (initNvmePci ⟨some queues,true,true,phys⟩ capCss).2
    ccAfter m actions r.cc = m.write (m.write (ccAfter m (disable ++ (cssActions capCss ++
      [.cc 0 7 4,.cc 0 11 3,.cc 1 0 1,.waitReady true])) r.cc) 6 16 0xF) 4 20 0xF ∧
    (applied m actions r).aqa = m.write (m.write r.aqa 63 0 (2^12 - 1)) 255 16 (2^12 - 1) ∧
    (applied m actions r).asq = phys queues ∧ (applied m actions r).acq = add64 (phys queues) 0x1000 := by
  have actions : (initNvmePci ⟨some queues,true,true,phys⟩ capCss).2 = (disable ++ ([Action.asq (phys queues),
      .acq (add64 (phys queues) 0x1000),.aqa 63 0 12,.aqa 255 16 12] ++ (cssActions capCss ++
      [.cc 0 7 4,.cc 0 11 3,.cc 1 0 1,.waitReady true]))) ++ [.cc 6 16 4,.cc 4 20 4] := rfl
  intro whole
  rw [show whole = _ from actions]
  refine ⟨?_,?_,?_,?_⟩
  · rw [ccAppend,ccAppend,ccAppend,ccAppend disable]
    rfl
  · unfold cssActions
    split_ifs <;> rfl
  · unfold cssActions
    split_ifs <;> rfl
  · unfold cssActions
    split_ifs <;> rfl

theorem endPhase {last : Phase} {regs : Registers} (keeps : Keeps last ⟨regs,[]⟩) : last.Holds regs := by
  obtain ⟨p,holds,done⟩ := keeps
  cases done
  exact holds

/-- Every run of the reset ends with the registers that the driver's accesses give them one after
another: programmed, with the queues' pages and sizes, and the controller running; or disabled
and nothing else changed, if memory for the admin queue is lacking. -/
theorem resetEnds (m : Masked) (mem : Memory) (r after : Registers)
    (reach : Relation.ReflTransGen (Step m) (started m mem r) ⟨after,[]⟩) :
    ((initNvmePci mem (m.read r.cap 37 0xFF)).1 = 0 → Completed m mem r after) ∧
    ((initNvmePci mem (m.read r.cap 37 0xFF)).1 ≠ 0 → mem.given = false ∧ GivenUp m r after) := by
  have settles := runSettles reach
  have keeps := runKeeps ⟨.unknown,trivial,(initPhases mem _).1⟩ reach
  have phase := endPhase keeps
  have result := (initPhases mem (m.read r.cap 37 0xFF)).2
  change settled after = settled (applied m (initNvmePci mem (m.read r.cap 37 0xFF)).2 r) at settles
  have cap : after.cap = r.cap := (congrArg Registers.cap settles).trans (appliedCap _ r)
  have cc : after.cc = ccAfter m (initNvmePci mem (m.read r.cap 37 0xFF)).2 r.cc :=
    (congrArg Registers.cc settles).trans (appliedCc _ r)
  have aqa := congrArg Registers.aqa settles
  have asq := congrArg Registers.asq settles
  have acq := congrArg Registers.acq settles
  simp only [settled] at aqa asq acq
  constructor
  · intro clean
    have given : mem.given = true := by
      by_contra none
      rw [result,if_neg none] at clean
      cases clean
    rw [if_pos given] at phase
    obtain ⟨queues,sub,comp,phys⟩ := mem
    cases queues with
    | none => cases given
    | some queues =>
      cases sub with
      | false => cases given
      | true =>
        cases comp with
        | false => cases given
        | true =>
          obtain ⟨wholeCc,sizes,sub,comp⟩ := configured (m := m) (m.read r.cap 37 0xFF) queues phys r
          have low := readWritten m r.aqa 63 0 12 (by decide)
          have high := readWritten m (m.write r.aqa 63 0 (2^12 - 1)) 255 16 12 (by decide)
          have kept := readUnwritten m (m.write r.aqa 63 0 (2^12 - 1)) 255 16 12 0 12 (by decide) (.inl (by decide))
          refine ⟨⟨queues,rfl,asq.trans sub,acq.trans comp⟩,?_,?_,phase⟩
          · rw [aqa.trans sizes]
            exact ⟨kept.trans low,high⟩
          · rw [cap,cc,wholeCc,ccProgrammed]
            rfl
  · intro failed
    have missing : mem.given = false := by
      by_contra all
      rw [Bool.not_eq_false] at all
      rw [result,if_pos all] at failed
      exact failed rfl
    rw [missing] at phase
    have actions : (initNvmePci mem (m.read r.cap 37 0xFF)).2 = disable := by
      obtain ⟨queues,sub,comp,phys⟩ := mem
      cases queues with
      | none => rfl
      | some queues => cases sub <;> cases comp <;> first | rfl | cases missing
    rw [actions] at cc aqa asq acq
    refine ⟨missing,⟨asq,acq,aqa⟩,?_,phase⟩
    rw [cap,cc]
    rfl

end

def runningRegs : Registers := ⟨1 <<< 37,1,1,0,0,0⟩
def plainMemory : Memory := ⟨some 0x8000,true,true,fun a => a + 0x100000⟩

def waiting : Run :=
  ⟨(Action.cc 0 0 1).apply .standard runningRegs,(started .standard plainMemory runningRegs).rest.tail⟩

theorem resetOrderlyWaiting : waiting.rest.head? = some (.waitReady false) ∧
    ¬ (Action.waitReady false).goes .standard waiting.regs ∧
    (∀ next, Step .standard waiting next → SameSetUp waiting.regs next.regs) ∧
    ∃ csts next, Step .standard waiting ⟨{ waiting.regs with csts := csts },waiting.rest⟩ ∧
      Step .standard ⟨{ waiting.regs with csts := csts },waiting.rest⟩ next ∧ next.rest.length < waiting.rest.length := by
  have cleared : Step .standard (started .standard plainMemory runningRegs) waiting := .driver trivial
  have ready : waiting.regs.ready = true := rfl
  obtain ⟨orderly,released⟩ := resetOrderly (m := .standard) plainMemory runningRegs (.single cleared)
  refine ⟨rfl,fun goes => ?_,fun next step => ?_,released nofun⟩
  · have seen := (readyBit waiting.regs false).mp goes
    cases ready.symm.trans seen
  · exact (orderly next step).resolve_left fun stopped => by cases ready.symm.trans stopped.2

theorem resetEndsRunning : ∃ after, Relation.ReflTransGen (Step .standard) (started .standard plainMemory runningRegs)
    ⟨after,[]⟩ ∧ Completed .standard plainMemory runningRegs after := by
  have keeps : Keeps _ (started .standard plainMemory runningRegs) := ⟨.unknown,trivial,(initPhases plainMemory _).1⟩
  obtain ⟨after,reach⟩ := canEnd (m := .standard) keeps
  exact ⟨after,reach,(resetEnds .standard plainMemory runningRegs after reach).1 rfl⟩

end Kdrivers.NvmeReset
