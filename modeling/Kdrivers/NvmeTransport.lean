import Kdrivers.BitFields
import Kdrivers.Interleave
import Kdrivers.NvmeQueue

/-! All queue pairs of a PCI transport (pci.c), used by any number of processors at once. What
they share are the doorbells behind the controller's properties. -/
namespace Kdrivers.NvmeTransport
open Bytes BitFields Interleave NvmeQueue TaggedRing

structure Props where
  cap : BitVec 64
  data : Nat

section
variable (m : Masked) (props : Props)

def stride : Nat := 4 <<< m.read props.cap 32 0xF

-- the products are of type int
def doorbell (k : Nat) : Nat := (((props.data : Int) + (BitVec.ofNat 32 (k * stride m props)).toInt) % 2^64).toNat

def sqTdbl (n : Nat) : Nat := doorbell m props (2 * n)
def cqHdbl (n : Nat) : Nat := doorbell m props (2 * n + 1)

structure Transport (count : Nat) where
  bar : Mem
  pairs : Fin count → State

def start {count : Nat} (bar : Mem) (sizes : Fin count → Size) : Transport count :=
  ⟨bar,fun n => initial (sizes n) (decide (n.val = 0)) n⟩

/- One action on one of the pairs. A submission rings the one doorbell of the pair, a poll
that leaves its wait loop the other. -/
def turn {count : Nat} (t : Transport count) (n : Fin count) (a : Action) : Option (Transport count) := do
  let s ← step (t.pairs n) a
  let bar := match a with
    | .submit _ => storeWord t.bar (sqTdbl m props (t.pairs n).mem.qpair.id) s.mem.sqDoorbell
    | .post _ _ => t.bar
    | .poll _ => storeWord t.bar (cqHdbl m props (t.pairs n).mem.qpair.id) s.mem.cqDoorbell
  some ⟨bar,Function.update t.pairs n s⟩

def Turn {count : Nat} (ok : State → Action → Prop) (t u : Transport count) : Prop :=
  ∃ n a, ok (t.pairs n) a ∧ turn m props t n a = some u

end

def Alone (ok : State → Action → Prop) (s t : State) : Prop := ∃ a, ok s a ∧ step s a = some t

def cells (m : Masked) (props : Props) {count : Nat} (n : Fin count) (completions : Bool) : Nat :=
  doorbell m props (2 * n + completions.toNat)

def rung (s : State) (completions : Bool) : Nat := if completions then s.mem.cqDoorbell else s.mem.sqDoorbell

structure Reached (m : Masked) (props : Props) (count : Nat) : Prop where
  product : 2 * count * stride m props ≤ 2^31
  space : props.data + 2^31 ≤ 2^64

section
variable {m : Masked} {props : Props} {count : Nat}

theorem strideWord : 4 ≤ stride m props := by
  rw [stride,Nat.shiftLeft_eq]
  exact Nat.le_mul_of_pos_right 4 (Nat.two_pow_pos _)

theorem doorbellAt (reached : Reached m props count) {k : Nat} (low : k < 2 * count) :
    doorbell m props k = props.data + k * stride m props := by
  have positive : 4 ≤ stride m props := strideWord
  have less : k * stride m props < 2 * count * stride m props := Nat.mul_lt_mul_of_pos_right low (by omega)
  have product := reached.product
  have space := reached.space
  rw [doorbell,intIff.mpr (by omega)]
  omega

theorem doorbellsApart (reached : Reached m props count) {j k : Nat} (first : j < 2 * count) (second : k < 2 * count)
    (less : j < k) : doorbell m props j + 4 ≤ doorbell m props k := by
  have positive : 4 ≤ stride m props := strideWord
  have next := Nat.mul_le_mul_right (stride m props) (Nat.succ_le_of_lt less)
  rw [Nat.succ_mul] at next
  rw [doorbellAt reached first,doorbellAt reached second]
  omega

theorem cellsApart (reached : Reached m props count) : Apart (cells m props : Fin count → Bool → Nat) := by
  intro i k j l other
  have first : 2 * i.val + k.toNat < 2 * count := by
    have := Bool.toNat_le k
    omega
  have second : 2 * j.val + l.toNat < 2 * count := by
    have := Bool.toNat_le l
    omega
  obtain less | same | less := Nat.lt_trichotomy (2 * i.val + k.toNat) (2 * j.val + l.toNat)
  · exact .inl (doorbellsApart reached first second less)
  · refine absurd ?_ other
    cases k <;> cases l <;> simp only [Bool.toNat_true,Bool.toNat_false] at same
    · exact ⟨Fin.ext (by omega),rfl⟩
    · omega
    · omega
    · exact ⟨Fin.ext (by omega),rfl⟩
  · exact .inr (doorbellsApart reached second first less)

structure Wired (size : Size) (n : Nat) (s : State) : Prop where
  id : s.mem.qpair.id = n
  sub : s.mem.qpair.subq.objs = size.sub ∧ s.mem.qpair.subq.idx < size.sub
  comp : s.mem.qpair.cmpq.objs = size.comp ∧ s.mem.qpair.cmpq.idx < size.comp
  tail : s.mem.sqDoorbell = s.mem.qpair.subq.idx
  head : s.mem.cqDoorbell = s.mem.qpair.cmpq.idx

theorem initialWired (size : Size) (admin : Bool) (n : Nat) : Wired size n (initial size admin n) :=
  ⟨rfl,⟨rfl,size.pos⟩,⟨rfl,size.compPos⟩,rfl,rfl⟩

variable {size : Size} {n : Nat} {s t : State}

theorem submitWired (wired : Wired size n s) {cmd : QsEntry} (ok : step s (.submit cmd) = some t) :
    Wired size n t ∧ t.mem.cqDoorbell = s.mem.cqDoorbell := by
  obtain ⟨_,rfl⟩ := submitted ok
  have low := Nat.mod_lt (s.mem.qpair.subq.idx + 1) size.pos
  rw [← wired.sub.1] at low
  exact ⟨⟨wired.id,⟨wired.sub.1,wired.sub.1 ▸ low⟩,wired.comp,rfl,wired.head⟩,rfl⟩

theorem postWired (wired : Wired size n s) {number : Nat} {entry : QcEntry} (ok : step s (.post number entry) = some t) :
    Wired size n t ∧ rung t = rung s := by
  obtain ⟨_,rfl⟩ := posted ok
  exact ⟨⟨wired.id,wired.sub,wired.comp,wired.tail,wired.head⟩,rfl⟩

theorem pollWired (wired : Wired size n s) {number : Nat} (ok : step s (.poll number) = some t) :
    Wired size n t ∧ t.mem.sqDoorbell = s.mem.sqDoorbell := by
  obtain ⟨_,sub,_,status,ret,mem,left,rfl⟩ := polled ok
  unfold nvmePciPollCompletion at left
  simp only [ringbufferAllocate] at left
  split at left
  · cases left
  simp only [Option.some.injEq,Prod.mk.injEq] at left
  obtain ⟨_,_,rfl⟩ := left
  have low := Nat.mod_lt (s.mem.qpair.cmpq.idx + 1) size.compPos
  rw [← wired.comp.1] at low
  exact ⟨⟨wired.id,wired.sub,⟨wired.comp.1,wired.comp.1 ▸ low⟩,wired.tail,rfl⟩,rfl⟩

end

structure Holds (m : Masked) (props : Props) {count : Nat} (sizes : Fin count → Size) (t : Transport count) : Prop where
  wired : ∀ n, Wired (sizes n) n (t.pairs n)
  shows : Shows (cells m props) rung t.bar t.pairs

section
variable {m : Masked} {props : Props} {count : Nat} {sizes : Fin count → Size} {t u : Transport count}

theorem wiredUpdate (wired : ∀ n, Wired (sizes n) n (t.pairs n)) {n : Fin count} {s : State} (own : Wired (sizes n) n s) :
    ∀ k, Wired (sizes k) k (Function.update t.pairs n s k) := by
  intro k
  by_cases same : k = n
  · subst same
    rwa [Function.update_self]
  · rw [Function.update_of_ne same]
    exact wired k

theorem turnHolds (reached : Reached m props count) (few : ∀ n, (sizes n).comp ≤ 2^32) (holds : Holds m props sizes t)
    {n : Fin count} {a : Action} (go : turn m props t n a = some u) : Holds m props sizes u ∧
      ∃ s, step (t.pairs n) a = some s ∧ u.pairs = Function.update t.pairs n s := by
  unfold turn at go
  simp only [bind,Option.bind_eq_some_iff] at go
  obtain ⟨s,ok,made⟩ := go
  cases made
  refine ⟨?_,s,ok,rfl⟩
  have before := holds.wired n
  have roomy := (sizes n).roomy
  have bound := few n
  cases a with
  | submit cmd =>
    obtain ⟨own,kept⟩ := submitWired before ok
    refine ⟨wiredUpdate holds.wired own,?_⟩
    have low := own.sub.2
    rw [before.id]
    refine storeShows (k := false) (cellsApart reached) holds.shows ?_ fun l other => ?_
    · change s.mem.sqDoorbell < 2^32
      rw [own.tail]
      omega
    · rw [Bool.eq_true_of_not_eq_false other]
      exact kept
  | post number entry =>
    obtain ⟨own,kept⟩ := postWired before ok
    exact ⟨wiredUpdate holds.wired own,quietShows holds.shows kept⟩
  | poll number =>
    obtain ⟨own,kept⟩ := pollWired before ok
    refine ⟨wiredUpdate holds.wired own,?_⟩
    have low := own.comp.2
    rw [before.id]
    refine storeShows (k := true) (cellsApart reached) holds.shows ?_ fun l other => ?_
    · change s.mem.cqDoorbell < 2^32
      rw [own.head]
      omega
    · rw [Bool.eq_false_of_not_eq_true other]
      exact kept

theorem turnsHold (reached : Reached m props count) (few : ∀ n, (sizes n).comp ≤ 2^32) {bar : Mem}
    (quiet : ∀ (n : Fin count) k, le32 bar (cells m props n k) = 0) {ok : State → Action → Prop}
    (run : Relation.ReflTransGen (Turn m props ok) (start bar sizes) t) : Holds m props sizes t ∧
      Relation.ReflTransGen (Each fun _ => Alone ok) (start bar sizes).pairs t.pairs := by
  induction run with
  | refl =>
    refine ⟨⟨fun n => initialWired (sizes n) _ n,fun n k => (quiet n k).trans ?_⟩,.refl⟩
    cases k <;> rfl
  | tail _ go ih =>
    obtain ⟨n,a,allowed,turned⟩ := go
    obtain ⟨holds,s,one,pairs⟩ := turnHolds reached few ih.1 turned
    exact ⟨holds,ih.2.tail ⟨n,s,⟨a,allowed,one⟩,pairs⟩⟩

/-- In every interleaving of actions on the pairs of a transport, each pair goes through a run
that it could go through alone, and its doorbells are left as it rang them last. -/
theorem transportRuns (reached : Reached m props count) (few : ∀ n, (sizes n).comp ≤ 2^32) {bar : Mem}
    (quiet : ∀ (n : Fin count) k, le32 bar (cells m props n k) = 0) {ok : State → Action → Prop}
    (run : Relation.ReflTransGen (Turn m props ok) (start bar sizes) t) (n : Fin count) :
    Relation.ReflTransGen (Alone ok) (initial (sizes n) (decide (n.val = 0)) n) (t.pairs n) ∧
      le32 t.bar (sqTdbl m props n) = (t.pairs n).mem.sqDoorbell ∧
      le32 t.bar (cqHdbl m props n) = (t.pairs n).mem.cqDoorbell := by
  obtain ⟨holds,each⟩ := turnsHold reached few quiet run
  exact ⟨eachRuns each n,holds.shows n false,holds.shows n true⟩

/-- As long as every pair is used with care, polls on all of them deliver the completions of
their own submissions, whatever happens on the others, and the controller reads in each of
the doorbells how far that pair has come. -/
theorem transportFaithful (reached : Reached m props count) (few : ∀ n, (sizes n).comp ≤ 2^32) {bar : Mem}
    (quiet : ∀ (n : Fin count) k, le32 bar (cells m props n k) = 0)
    (run : Relation.ReflTransGen (Turn m props Careful) (start bar sizes) t) (n : Fin count) : Faithful (t.pairs n) ∧
      le32 t.bar (sqTdbl m props n) = (t.pairs n).issued.length % (sizes n).sub ∧
      le32 t.bar (cqHdbl m props n) = (t.pairs n).takes.length % (sizes n).comp := by
  obtain ⟨holds,each⟩ := turnsHold reached few quiet run
  have inv := carefulRunInv (sizes n) _ n.val (eachRuns each n)
  have own := holds.wired n
  refine ⟨invFaithful inv,(holds.shows n false).trans (own.tail.trans ?_),(holds.shows n true).trans (own.head.trans ?_)⟩
  · rw [inv.sub]
  · rw [inv.cmp]

end

def plainProps : Props := ⟨0,0x1000⟩

theorem plainReached : Reached .standard plainProps 2 := ⟨by decide,by decide⟩

theorem zerosQuiet (n : Fin 2) (k : Bool) : le32 zeros (cells .standard plainProps n k) = 0 := rfl

def completed : QcEntry := { QcEntry.zero with cid := 1, phase := true }

theorem plainRun : ∃ t : Transport 2,
    Relation.ReflTransGen (Turn .standard plainProps Careful) (start zeros fun _ => driverSize) t ∧
      (t.pairs 0).issued.length = 1 ∧ (t.pairs 1).issued.length = 1 ∧ (t.pairs 1).takes = [⟨0,0,completed⟩] := by
  obtain ⟨t,u,v,w,first,second,third,last,idle,room,one,other,taken⟩ : ∃ t u v w : Transport 2,
      turn .standard plainProps (start zeros fun _ => driverSize) 0 (.submit QsEntry.zero) = some t ∧
        turn .standard plainProps t 1 (.submit QsEntry.zero) = some u ∧
        turn .standard plainProps u 1 (.post 0 completed) = some v ∧ turn .standard plainProps v 1 (.poll 0) = some w ∧
        (t.pairs 1).outstanding = [] ∧ (v.pairs 1).mem.qpair.cmpq = ⟨256,0⟩ ∧ (w.pairs 0).issued.length = 1 ∧
        (w.pairs 1).issued.length = 1 ∧ (w.pairs 1).takes = [⟨0,0,completed⟩] :=
    ⟨_,_,_,_,rfl,rfl,rfl,rfl,rfl,rfl,rfl,rfl,rfl⟩
  have none (s : State) (idle : s.outstanding = []) : Careful s (.submit QsEntry.zero) := by
    intro n held
    rw [idle] at held
    cases held
  have sent : Relation.ReflTransGen (Turn .standard plainProps Careful) (start zeros fun _ => driverSize) u :=
    .tail (.single ⟨0,.submit QsEntry.zero,none _ rfl,first⟩) ⟨1,.submit QsEntry.zero,none _ idle,second⟩
  have careful : Careful (v.pairs 1) (.poll 0) := by
    rw [Careful,room]
    decide
  exact ⟨w,(sent.tail ⟨1,.post 0 completed,trivial,third⟩).tail ⟨1,.poll 0,careful,last⟩,one,other,taken⟩

theorem transportRunsBoth : ∃ t : Transport 2, (t.pairs 1).takes = [⟨0,0,completed⟩] ∧
    Relation.ReflTransGen (Alone Careful) (initial driverSize false 1) (t.pairs 1) ∧
    le32 t.bar (sqTdbl .standard plainProps 1) = (t.pairs 1).mem.sqDoorbell ∧
    le32 t.bar (cqHdbl .standard plainProps 1) = (t.pairs 1).mem.cqDoorbell := by
  obtain ⟨t,run,_,_,taken⟩ := plainRun
  exact ⟨t,taken,transportRuns plainReached (fun _ => by decide) zerosQuiet run 1⟩

theorem transportFaithfulBoth : ∃ t : Transport 2, (t.pairs 1).takes = [⟨0,0,completed⟩] ∧ Faithful (t.pairs 1) ∧
    le32 t.bar (sqTdbl .standard plainProps 0) = 1 ∧ le32 t.bar (sqTdbl .standard plainProps 1) = 1 ∧
    le32 t.bar (cqHdbl .standard plainProps 0) = (t.pairs 0).takes.length % 256 ∧
    le32 t.bar (cqHdbl .standard plainProps 1) = 1 := by
  obtain ⟨t,run,one,other,taken⟩ := plainRun
  have few : ∀ _ : Fin 2, driverSize.comp ≤ 2^32 := fun _ => by decide
  obtain ⟨_,tail,head⟩ := transportFaithful plainReached few zerosQuiet run 0
  obtain ⟨faithful,second,seen⟩ := transportFaithful plainReached few zerosQuiet run 1
  refine ⟨t,taken,faithful,tail.trans ?_,second.trans ?_,head,seen.trans ?_⟩
  · rw [one]
    rfl
  · rw [other]
    rfl
  · rw [taken]
    rfl

end Kdrivers.NvmeTransport
