import Kdrivers.LastWrite
import Kdrivers.Outcome

/-! Buffers in memory as files (buffer.c). The heap is addressed from the start of the
buffer, so that what lies past its end is other memory. -/
namespace Kdrivers.RamBuffer
open Bytes LastWrite

structure BufferState where
  size : Nat
  heap : Mem

-- std is ARC_STD_BUFF_SIZE, given says whether there is memory for the state
def bufferInit (std : Nat) (arg : Option Nat) (given : Bool) (memory : Option Mem) : Outcome (Int × Option BufferState) :=
  let size := arg.getD std
  if given = false then .ret (-1,none)
  else match memory with
    | none => if size = 0 then .ret (0,some ⟨0,zeros⟩) else .fault .nullPointer
    | some heap => .ret (0,some ⟨size,patch heap 0 size zeros⟩)

-- how much a call moves, clamped by a signed difference
def given (total size count offset : Nat) : Nat :=
  let wanted := mul64 size count
  let accessible := sub64 total offset
  if accessible = 0 then 0
  else
    let delta := (BitVec.ofNat 64 (sub64 wanted accessible)).toInt
    let given := if 0 < delta then sub64 wanted delta.toNat else wanted
    if 0 < given then given else 0

-- -1 in a size_t
def improper : Nat := 2^64 - 1

def bufferRead (state : BufferState) (buffer : Option Mem) (size count offset : Nat) : Nat × Option Mem := match buffer with
  | none => (improper,none)
  | some buffer =>
    if size = 0 ∨ count = 0 then (improper,some buffer)
    else
      let n := given state.size size count offset
      (n,some (patch buffer 0 n (view state.heap offset)))

def bufferWrite (state : BufferState) (buffer : Option Mem) (size count offset : Nat) : Nat × BufferState := match buffer with
  | none => (improper,state)
  | some buffer =>
    if size = 0 ∨ count = 0 then (improper,state)
    else
      let n := given state.size size count offset
      (n,{ state with heap := patch state.heap offset n buffer })

structure Call where
  write : Bool
  size : Nat
  count : Nat
  offset : Nat
  data : Mem
  asked : size ≠ 0 ∧ count ≠ 0
  fits : size < 2^64 ∧ count < 2^64
  position : offset < 2^63

def Call.run (c : Call) (state : BufferState) : Nat × Mem × BufferState :=
  if c.write then
    let (n,state) := bufferWrite state (some c.data) c.size c.count c.offset
    (n,c.data,state)
  else
    let (n,out) := bufferRead state (some c.data) c.size c.count c.offset
    (n,out.getD c.data,state)

def runAll (state : BufferState) (calls : List Call) : BufferState := calls.foldl (fun state c => (c.run state).2.2) state

def Call.share (total : Nat) (c : Call) : Nat := min (c.size * c.count) (total - c.offset)

def writes (total : Nat) (calls : List Call) : List Write :=
  (calls.filter Call.write).map fun c => ⟨c.offset,c.share total,c.data⟩

structure Right (state : BufferState) (before : List Call) (c : Call) : Prop where
  moves : (c.run (runAll state before)).1 = c.share state.size
  inside : (c.run (runAll state before)).1 ≠ 0 → c.offset + (c.run (runAll state before)).1 ≤ state.size
  changes : ∀ k, (c.run (runAll state before)).2.2.heap k ≠ (runAll state before).heap k →
    c.write = true ∧ c.offset ≤ k ∧ k < c.offset + c.share state.size
  stores : c.write = true → ∀ i < c.share state.size, (c.run (runAll state before)).2.2.heap (c.offset + i) = c.data i
  delivers : c.write = false → ∀ i < c.share state.size,
    (c.run (runAll state before)).2.1 i = (written (writes state.size before) (c.offset + i)).getD 0
  leaves : c.write = false → ∀ i, c.share state.size ≤ i → (c.run (runAll state before)).2.1 i = c.data i

def Fair (total : Nat) (c : Call) : Prop :=
  c.offset = total ∨ (c.offset < total ∧
    ((total - c.offset ≤ c.size * c.count % 2^64 ∧ c.size * c.count % 2^64 - (total - c.offset) < 2^63) ∨
      (c.size * c.count < total - c.offset ∧ total - c.offset - c.size * c.count ≤ 2^63) ∨
      (2^64 ≤ c.size * c.count ∧ c.size * c.count % 2^64 + 2^63 < total - c.offset)))

theorem givenEq (total size count offset : Nat) :
    given total size count offset =
      if sub64 total offset = 0 then 0
      else if 0 < sub64 (mul64 size count) (sub64 total offset) ∧
        sub64 (mul64 size count) (sub64 total offset) < 2^63 then sub64 total offset
      else mul64 size count := by
  have wanted : mul64 size count < 2^64 := Nat.mod_lt _ (by omega)
  have accessible : sub64 total offset < 2^64 := Nat.mod_lt _ (by omega)
  unfold given
  generalize mul64 size count = w at *
  generalize sub64 total offset = a at *
  have short : sub64 w a < 2^64 := Nat.mod_lt _ (by omega)
  have back : sub64 w (sub64 w a) = a := by
    unfold sub64
    omega
  simp only [BitVec.toInt_eq_toNat_cond,BitVec.toNat_ofNat,Nat.mod_eq_of_lt short]
  generalize sub64 w a = d at *
  by_cases none : a = 0
  · rw [if_pos none,if_pos none]
  rw [if_neg none,if_neg none]
  by_cases clamped : 0 < d ∧ d < 2^63
  · rw [if_pos clamped,if_pos (show 2 * d < 2^64 by omega),if_pos (show (0 : Int) < d by omega),Int.toNat_natCast,back,
      if_pos (Nat.pos_of_ne_zero none)]
  · have sign : ¬ (0 : Int) < if 2 * d < 2^64 then (d : Int) else (d : Int) - (2^64 : Nat) := by
      split <;> omega
    rw [if_neg clamped,if_neg sign]
    split <;> omega

theorem shareIff {total : Nat} (large : total < 2^64) (c : Call) :
    given total c.size c.count c.offset = c.share total ↔ Fair total c := by
  have position := c.position
  rw [givenEq]
  unfold Fair Call.share sub64 mul64
  generalize c.size * c.count = p at *
  generalize c.offset = o at *
  have rest : p % 2^64 < 2^64 := Nat.mod_lt _ (by omega)
  by_cases inside : o < total
  · -- what is left of the buffer is at least a byte
    obtain ⟨a,left⟩ : ∃ a, a = total - o := ⟨_,rfl⟩
    have accessible : (total + (2^64 - o)) % 2^64 = a := by omega
    rw [accessible,← left,if_neg (by omega)]
    split <;> omega
  · have empty : min p (total - o) = 0 := by omega
    rw [empty]
    split
    · omega
    · split <;> omega

theorem runWrite {c : Call} (writes : c.write = true) (state : BufferState) : c.run state =
    (given state.size c.size c.count c.offset,c.data,
      ⟨state.size,patch state.heap c.offset (given state.size c.size c.count c.offset) c.data⟩) := by
  have asked : ¬ (c.size = 0 ∨ c.count = 0) := not_or.mpr c.asked
  rw [Call.run,if_pos writes]
  simp only [bufferWrite,if_neg asked]

theorem runRead {c : Call} (reads : c.write = false) (state : BufferState) : c.run state =
    (given state.size c.size c.count c.offset,
      patch c.data 0 (given state.size c.size c.count c.offset) (view state.heap c.offset),state) := by
  have asked : ¬ (c.size = 0 ∨ c.count = 0) := not_or.mpr c.asked
  rw [Call.run,if_neg (ne_true_of_eq_false reads)]
  simp only [bufferRead,if_neg asked,Option.getD_some]

theorem runGives (c : Call) (state : BufferState) : (c.run state).1 = given state.size c.size c.count c.offset := by
  cases kind : c.write with
  | true => rw [runWrite kind]
  | false => rw [runRead kind]

theorem runSize (c : Call) (state : BufferState) : (c.run state).2.2.size = state.size := by
  cases kind : c.write with
  | true => rw [runWrite kind]
  | false => rw [runRead kind]

theorem runAllSize (state : BufferState) (calls : List Call) : (runAll state calls).size = state.size := by
  induction calls generalizing state with
  | nil => rfl
  | cons c rest ih => exact (ih (c.run state).2.2).trans (runSize c state)

theorem runAllHeap {state : BufferState} (large : state.size < 2^64) {calls : List Call}
    (fair : ∀ c ∈ calls, Fair state.size c) :
    (runAll state calls).heap = (writes state.size calls).foldl Write.apply state.heap := by
  induction calls generalizing state with
  | nil => rfl
  | cons c rest ih =>
    have size := runSize c state
    have share := (shareIff large c).mpr (fair c List.mem_cons_self)
    have later : ∀ d ∈ rest, Fair (c.run state).2.2.size d := fun d mem => by
      rw [size]
      exact fair d (List.mem_cons_of_mem _ mem)
    change (runAll (c.run state).2.2 rest).heap = _
    rw [ih (by rwa [size]) later,size]
    cases kind : c.write with
    | true =>
      have first : writes state.size (c::rest) = ⟨c.offset,c.share state.size,c.data⟩::writes state.size rest := by
        simp [writes,kind]
      rw [runWrite kind,first,List.foldl_cons,share]
      rfl
    | false =>
      have same : writes state.size (c::rest) = writes state.size rest := by simp [writes,kind]
      rw [runRead kind,same]

theorem initZero {std : Nat} {arg : Option Nat} {given : Bool} {memory : Option Mem} {state : BufferState}
    (init : bufferInit std arg given memory = .ret (0,some state)) {k : Nat} (inside : k < state.size) :
    state.heap k = 0 := by
  unfold bufferInit at init
  simp only at init
  split at init
  · cases init
  · split at init
    · split at init
      · cases init
        rfl
      · cases init
    · cases init
      exact patchInside (Nat.zero_le k) (by rw [Nat.zero_add]; exact inside)

theorem rightAfter {state : BufferState} (large : state.size < 2^64) (zero : ∀ k < state.size, state.heap k = 0)
    {before : List Call} (earlier : ∀ d ∈ before, Fair state.size d) {c : Call} (fair : Fair state.size c) :
    Right state before c := by
  have size := runAllSize state before
  have heap := runAllHeap large earlier
  have moves : (c.run (runAll state before)).1 = c.share state.size := by
    rw [runGives,size]
    exact (shareIff large c).mpr fair
  have share : given (runAll state before).size c.size c.count c.offset = c.share state.size := by
    rw [← runGives,moves]
  have most : c.share state.size ≤ state.size - c.offset := Nat.min_le_right _ _
  constructor
  · exact moves
  · rw [moves]
    omega
  · intro k differs
    cases kind : c.write with
    | true =>
      rw [runWrite kind,share] at differs
      refine ⟨rfl,?_⟩
      by_contra outside
      exact differs (patchOutside (by omega))
    | false =>
      rw [runRead kind] at differs
      exact absurd rfl differs
  · intro kind i low
    rw [runWrite kind,share]
    change patch _ _ _ _ _ = _
    rw [patchInside (by omega) (by omega),Nat.add_sub_cancel_left]
  · intro kind i low
    rw [runRead kind,share]
    change patch _ _ _ _ _ = _
    rw [patchInside (Nat.zero_le i) (by omega),Nat.sub_zero,viewApply,heap,appliedAt,zero _ (by omega)]
  · intro kind i high
    rw [runRead kind,share]
    exact patchOutside (by omega)

/-- Over any sequence of calls a buffer is an array of its size just if each call's clamp
gives it its share. -/
theorem arrayIff {std : Nat} {arg : Option Nat} {given : Bool} {memory : Option Mem} {state : BufferState}
    (init : bufferInit std arg given memory = .ret (0,some state)) (large : state.size < 2^64) (calls : List Call) :
    (∀ before c after, calls = before ++ c::after → Right state before c) ↔ ∀ c ∈ calls, Fair state.size c := by
  constructor
  · intro right c mem
    obtain ⟨before,after,split⟩ := List.append_of_mem mem
    have moves := (right before c after split).moves
    rw [runGives,runAllSize] at moves
    exact (shareIff large c).mp moves
  · rintro fair before c after rfl
    refine rightAfter large (fun k inside => initZero init inside) (fun d mem => fair d ?_) (fair c ?_)
    · exact List.mem_append_left _ mem
    · exact List.mem_append_right _ List.mem_cons_self

def small : BufferState := ⟨4,patch zeros 0 4 zeros⟩
def within : Call := ⟨true,2,2,1,fun _ => 7,by decide,by decide,by decide⟩
def past : Call := ⟨true,1,1,5,fun _ => 7,by decide,by decide,by decide⟩

theorem arrayWithin : Right small [] within :=
  (arrayIff (show bufferInit 0 (some 4) true (some zeros) = .ret (0,some small) from rfl) (by decide) [within]).mpr
    (fun c mem => by cases List.mem_singleton.mp mem; exact .inr ⟨by decide,.inl (by decide)⟩) [] within [] rfl

theorem pastEnd : ¬ ∀ (std : Nat) (arg : Option Nat) (given : Bool) (memory : Option Mem) (state : BufferState)
    (calls : List Call), bufferInit std arg given memory = .ret (0,some state) → state.size < 2^64 →
      ∀ before c after, calls = before ++ c::after → Right state before c := by
  intro all
  have moves := (all 0 (some 4) true (some zeros) small [past] rfl (by decide) [] past [] rfl).moves
  rw [runGives] at moves
  exact absurd ((shareIff (by decide) past).mp moves) (by unfold Fair; decide)

end Kdrivers.RamBuffer
