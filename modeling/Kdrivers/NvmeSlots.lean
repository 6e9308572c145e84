import Kdrivers.NvmeQueue

/-! The slots of a submission ring that commands hold: what a poll gives back of them (pci.c),
and the ids that commands in flight have from them. -/
namespace Kdrivers.NvmeSlots
open NvmeQueue

/- A pair of any number and any two rings, as create_admin_qpair and nvme_create_io_qpairs leave
it: the admin pair is the one of number 0. Ids hold eight bits of the slot. -/
structure Pair where
  sub : Nat
  comp : Nat
  id : Nat
  ids : sub ≤ 256

def start (p : Pair) : State :=
  ⟨decide (p.id = 0),⟨⟨⟨p.sub,0⟩,⟨p.comp,0⟩,p.id,true⟩,fun _ => QsEntry.zero,fun _ => QcEntry.zero,0,0,[]⟩,[],[],[],[],[]⟩

def Returned (s : State) (slot : Nat) (take : Take) : Prop :=
  ∃ sub, s.issued[take.number]? = some sub ∧ slot = sub.1 ∧ slot < s.mem.qpair.subq.objs

structure Matched (s : State) : Prop where
  returned : List.Forall₂ (Returned s) s.mem.freed s.takes
  distinct : ∀ n ∈ s.outstanding, ∀ m ∈ s.outstanding, ∀ a b : Nat × QsEntry, s.issued[n]? = some a →
    s.issued[m]? = some b → a.2.cid = b.2.cid → n = m

theorem returnedInside {s : State} (matched : Matched s) : ∀ slot ∈ s.mem.freed, slot < s.mem.qpair.subq.objs := by
  have returned := matched.returned
  generalize s.mem.freed = slots at returned ⊢
  generalize s.takes = takes at returned
  induction returned with
  | nil => exact fun slot mem => nomatch mem
  | cons own _ ih =>
    intro slot mem
    rcases List.mem_cons.mp mem with rfl | later
    · obtain ⟨_,_,_,low⟩ := own
      exact low
    · exact ih slot later

/- No submission is given a slot that a command in flight has, and no poll is on the admin pair. -/
def Tidy (s : State) : Action → Prop
  | .submit _ => ∀ m ∈ s.outstanding, ∀ sub ∈ s.issued[m]?, sub.1 ≠ s.mem.qpair.subq.idx
  | .post _ _ => True
  | .poll _ => s.mem.qpair.id ≠ 0
instance (s a) : Decidable (Tidy s a) := by
  cases a <;> (unfold Tidy; infer_instance)

def tidyStep (s : State) (a : Action) : Option State := if Tidy s a then step s a else none
def TidyStep (s t : State) : Prop := ∃ a, Tidy s a ∧ step s a = some t

/-! The index that is given back is the slot for I/O pairs, and past every ring for the admin pair. -/

theorem freedIo {id ptr : Nat} (io : id ≠ 0) (low : ptr < 256) : freedIndex id (commandId false id ptr) = ptr := by
  have byte : ptr &&& 0xFF = ptr := by
    rw [show 0xFF = 2^8 - 1 by rfl,Nat.and_two_pow_sub_one_eq_mod]
    exact Nat.mod_eq_of_lt low
  have small : (id &&& 0x3F) >>> 6 = 0 := by
    rw [Nat.shiftRight_eq_div_pow]
    exact Nat.div_eq_of_lt (Nat.and_lt_two_pow id (by decide : 0x3F < 2^6))
  unfold freedIndex commandId
  rw [if_neg io,byte,if_neg Bool.false_ne_true,Nat.shiftRight_or_distrib,small,Nat.zero_or,Nat.shiftLeft_shiftRight,byte]

theorem freedAdmin (ptr : Nat) : 2^15 ≤ freedIndex 0 (commandId true 0 ptr) := by
  unfold freedIndex commandId
  rw [if_pos rfl,if_pos rfl]
  exact Nat.left_le_or

structure Slots (s : State) : Prop where
  admin : s.admin = decide (s.mem.qpair.id = 0)
  ids : s.mem.qpair.subq.objs ≤ 256
  next : 0 < s.mem.qpair.subq.objs → s.mem.qpair.subq.idx < s.mem.qpair.subq.objs
  held : ∀ (n : Nat) (sub : Nat × QsEntry), s.issued[n]? = some sub →
    sub.1 < s.mem.qpair.subq.objs ∧ sub.2.cid = commandId s.admin s.mem.qpair.id sub.1
  known : ∀ n ∈ s.outstanding, n < s.issued.length
  apart : ∀ n ∈ s.outstanding, ∀ m ∈ s.outstanding, ∀ a b : Nat × QsEntry, s.issued[n]? = some a →
    s.issued[m]? = some b → a.1 = b.1 → n = m
  returned : List.Forall₂ (Returned s) s.mem.freed s.takes

theorem startSlots (p : Pair) : Slots (start p) where
  admin := rfl
  ids := p.ids
  next := id
  held := by simp [start]
  known := by simp [start]
  apart := by simp [start]
  returned := .nil

theorem slotsMatched {s : State} (slots : Slots s) : Matched s where
  returned := slots.returned
  distinct := by
    intro n hn m hm a b ha hb same
    obtain ⟨lowA,cidA⟩ := slots.held n a ha
    obtain ⟨lowB,cidB⟩ := slots.held m b hb
    rw [cidA,cidB] at same
    exact slots.apart n hn m hm a b ha hb
      (commandIdInjective (Nat.lt_of_lt_of_le lowA slots.ids) (Nat.lt_of_lt_of_le lowB slots.ids) same)

theorem pollLeaves {s t : State} {number : Nat} (ok : step s (.poll number) = some t) : ∃ sub take, s.issued[number]? = some sub ∧
    take.number = number ∧ t.mem.freed = s.mem.freed ++ [freedIndex s.mem.qpair.id sub.2.cid] ∧
    t.takes = s.takes ++ [take] ∧ t.issued = s.issued ∧ t.outstanding = s.outstanding.erase number ∧
    t.mem.qpair.subq = s.mem.qpair.subq ∧ t.mem.qpair.id = s.mem.qpair.id ∧ t.admin = s.admin := by
  obtain ⟨_,sub,found,status,ret,mem,left,rfl⟩ := polled ok
  unfold nvmePciPollCompletion at left
  simp only [ringbufferAllocate] at left
  split at left <;> try contradiction
  simp only [Option.some.injEq,Prod.mk.injEq] at left
  obtain ⟨_,_,rfl⟩ := left
  exact ⟨sub,_,found,rfl,rfl,rfl,rfl,rfl,rfl,rfl,rfl⟩

section Preservation
variable {s t : State} (slots : Slots s)
include slots

theorem submitSlots {cmd : QsEntry} (tidy : Tidy s (.submit cmd)) (ok : step s (.submit cmd) = some t) : Slots t := by
  obtain ⟨room,rfl⟩ := submitted ok
  have idx := slots.next (by omega)
  have old {n : Nat} (inside : n < s.issued.length) {sub : Nat × QsEntry} :
      (s.issued ++ [(s.mem.qpair.subq.idx,(nvmePciSubmitCommand s.admin s.mem cmd).1)])[n]? = some sub ↔
        s.issued[n]? = some sub := by
    rw [List.getElem?_append_left inside]
  have last {sub : Nat × QsEntry} (found : (s.issued ++
      [(s.mem.qpair.subq.idx,(nvmePciSubmitCommand s.admin s.mem cmd).1)])[s.issued.length]? = some sub) :
      sub = (s.mem.qpair.subq.idx,(nvmePciSubmitCommand s.admin s.mem cmd).1) := by
    simpa using found.symm
  constructor
  case admin => exact slots.admin
  case ids => exact slots.ids
  case next => exact fun pos => Nat.mod_lt _ pos
  case held =>
    intro n sub found
    rcases Nat.lt_trichotomy n s.issued.length with below | same | beyond
    · exact slots.held n sub ((old below).mp found)
    · subst same
      cases last found
      exact ⟨idx,rfl⟩
    · rw [List.getElem?_eq_none (by simp; omega)] at found
      cases found
  case known =>
    intro n mem
    rw [List.length_append]
    rcases List.mem_append.mp mem with before | new
    · exact Nat.lt_add_right _ (slots.known n before)
    · rw [List.mem_singleton.mp new]
      exact Nat.lt_succ_self _
  case apart =>
    intro n hn m hm a b ha hb same
    rcases List.mem_append.mp hn with beforeN | newN <;> rcases List.mem_append.mp hm with beforeM | newM
    · exact slots.apart n beforeN m beforeM a b ((old (slots.known n beforeN)).mp ha)
        ((old (slots.known m beforeM)).mp hb) same
    · cases List.mem_singleton.mp newM
      cases last hb
      exact absurd same (tidy n beforeN a ((old (slots.known n beforeN)).mp ha))
    · cases List.mem_singleton.mp newN
      cases last ha
      exact absurd same.symm (tidy m beforeM b ((old (slots.known m beforeM)).mp hb))
    · rw [List.mem_singleton.mp newN,List.mem_singleton.mp newM]
  case returned =>
    refine slots.returned.imp fun slot take own => ?_
    obtain ⟨sub,found,same,low⟩ := own
    exact ⟨sub,(old (List.getElem?_eq_some_iff.mp found).1).mpr found,same,low⟩

theorem postSlots {number : Nat} {entry : QcEntry} (ok : step s (.post number entry) = some t) : Slots t := by
  obtain ⟨_,rfl⟩ := posted ok
  exact ⟨slots.admin,slots.ids,slots.next,slots.held,slots.known,slots.apart,slots.returned⟩

theorem pollSlots {number : Nat} (tidy : Tidy s (.poll number)) (ok : step s (.poll number) = some t) : Slots t := by
  obtain ⟨sub,take,found,own,freed,takes,issued,outstanding,subq,id,admin⟩ := pollLeaves ok
  obtain ⟨low,cid⟩ := slots.held number sub found
  have io : s.mem.qpair.id ≠ 0 := tidy
  have mem {n : Nat} (here : n ∈ t.outstanding) : n ∈ s.outstanding := by
    rw [outstanding] at here
    exact List.mem_of_mem_erase here
  constructor
  case admin => rw [admin,id,slots.admin]
  case ids => rw [subq]; exact slots.ids
  case next => rw [subq]; exact slots.next
  case held => rw [issued,subq,id,admin]; exact slots.held
  case known => rw [issued]; exact fun n here => slots.known n (mem here)
  case apart => rw [issued]; exact fun n hn m hm => slots.apart n (mem hn) m (mem hm)
  case returned =>
    have back : freedIndex s.mem.qpair.id sub.2.cid = sub.1 := by
      rw [cid,slots.admin,decide_eq_false io]
      exact freedIo io (Nat.lt_of_lt_of_le low slots.ids)
    rw [freed,takes]
    refine List.rel_append (R := Returned t) (slots.returned.imp ?_) ?_
    · intro slot take own
      unfold Returned
      rw [issued,subq]
      exact own
    · refine .cons ⟨sub,?_,back,?_⟩ .nil
      · rw [issued,own,found]
      · rw [subq,back]; exact low

theorem submitTidy {cmd : QsEntry} (ok : step s (.submit cmd) = some t) (matched : Matched t) : Tidy s (.submit cmd) := by
  obtain ⟨room,rfl⟩ := submitted ok
  intro m held sub found same
  obtain ⟨low,cid⟩ := slots.held m sub found
  have below := slots.known m held
  have number : m = s.issued.length := by
    refine matched.distinct m (List.mem_append_left _ held) s.issued.length (by simp) sub
      (s.mem.qpair.subq.idx,(nvmePciSubmitCommand s.admin s.mem cmd).1) ?_ ?_ ?_
    · exact (List.getElem?_append_left below).trans found
    · exact List.getElem?_concat_length
    · rw [cid,same]
      rfl
  omega

theorem pollTidy {number : Nat} (ok : step s (.poll number) = some t) (matched : Matched t) : Tidy s (.poll number) := by
  obtain ⟨sub,take,found,own,freed,takes,issued,outstanding,subq,id,admin⟩ := pollLeaves ok
  intro zero
  have low := returnedInside matched (freedIndex s.mem.qpair.id sub.2.cid) (by rw [freed]; simp)
  have high := freedAdmin sub.1
  have ids := slots.ids
  rw [subq,(slots.held number sub found).2,slots.admin,decide_eq_true zero,zero] at low
  omega

end Preservation

theorem tidySlots {s t : State} (slots : Slots s) (go : TidyStep s t) : Slots t := by
  obtain ⟨a,tidy,ok⟩ := go
  cases a with
  | submit cmd => exact submitSlots slots tidy ok
  | post number entry => exact postSlots slots ok
  | poll number => exact pollSlots slots tidy ok

theorem tidyRunSlots (p : Pair) {s : State} (run : Relation.ReflTransGen TidyStep (start p) s) : Slots s := by
  induction run with
  | refl => exact startSlots p
  | tail _ go ih => exact tidySlots ih go

theorem matchedTidy {s t : State} {a : Action} (slots : Slots s) (ok : step s a = some t) : Matched t ↔ Tidy s a := by
  constructor
  · intro matched
    cases a with
    | submit cmd => exact submitTidy slots ok matched
    | post number entry => trivial
    | poll number => exact pollTidy slots ok matched
  · exact fun tidy => slotsMatched (tidySlots slots ⟨a,tidy,ok⟩)

/-- In every run of tidy steps on any pair, each poll has given back the slot of its own
command and the commands in flight have different ids, and no other step keeps that. -/
theorem tidyRunMatched (p : Pair) {s : State} (run : Relation.ReflTransGen TidyStep (start p) s) :
    Matched s ∧ ∀ a t, step s a = some t → (Matched t ↔ Tidy s a) := by
  have slots := tidyRunSlots p run
  exact ⟨slotsMatched slots,fun _ _ ok => matchedTidy slots ok⟩

theorem ranSteps (f : State → Action → Option State) {s t : State} (actions : List Action)
    (ran : actions.foldlM f s = some t) : Relation.ReflTransGen (fun u v => ∃ a, f u a = some v) s t := by
  induction actions generalizing s with
  | nil =>
    cases ran
    exact .refl
  | cons a actions ih =>
    rw [List.foldlM_cons] at ran
    obtain ⟨u,first,rest⟩ := Option.bind_eq_some_iff.mp ran
    exact .head ⟨a,first⟩ (ih rest)

theorem tidyStepIs {s t : State} (go : ∃ a, tidyStep s a = some t) : TidyStep s t := by
  obtain ⟨a,ok⟩ := go
  unfold tidyStep at ok
  split at ok <;> try contradiction
  exact ⟨a,‹_›,ok⟩

def answerTo (p : Pair) : QcEntry := { QcEntry.zero with cid := commandId (decide (p.id = 0)) p.id 0, phase := true }

def ioPair : Pair := ⟨driverSize.sub,driverSize.comp,1,driverSize.ids⟩
def adminPair : Pair := ⟨driverSize.sub,driverSize.comp,0,driverSize.ids⟩

theorem ioCommandReturned : ∃ s, s.mem.freed = [0] ∧ Matched s := by
  have ends : ([.submit QsEntry.zero,.post 0 (answerTo ioPair),.poll 0].foldlM tidyStep (start ioPair)).map
      (fun s => s.mem.freed) = some [0] := by decide
  obtain ⟨s,ran,freed⟩ := Option.map_eq_some_iff.mp ends
  exact ⟨s,freed,(tidyRunMatched ioPair (.mono (fun _ _ => tidyStepIs) _ _ (ranSteps tidyStep _ ran))).1⟩

theorem adminSlotLost : ¬ ∀ p s, Relation.ReflTransGen Step (start p) s → Matched s := by
  intro all
  have ends : (([.submit QsEntry.zero,.post 0 (answerTo adminPair),.poll 0].foldlM step (start adminPair)).map
      fun s => (s.mem.freed,s.mem.qpair.subq.objs)) = some ([2^15],64) := by decide
  obtain ⟨s,ran,same⟩ := Option.map_eq_some_iff.mp ends
  obtain ⟨freed,objs⟩ := Prod.mk.inj same
  have low := returnedInside (all adminPair s (ranSteps step _ ran)) (2^15) (by rw [freed]; exact List.mem_singleton_self _)
  rw [objs] at low
  exact absurd low (by decide)

end Kdrivers.NvmeSlots
