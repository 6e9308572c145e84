import Kdrivers.BitFields

/-! The command sets of a controller: how reset_controller programs them (pci.c) and how
nvme_set_command_sets asks for them through the transport (nvme.c). -/
namespace Kdrivers.NvmeCommandSets
open BitFields

structure CtrlProps where
  cap : BitVec 64
  cc : BitVec 32
  deriving DecidableEq, Repr

structure Transport where
  props : CtrlProps
  exposed : Int
  deriving DecidableEq, Repr

def transportCtrlIden : Int := 0
def transportCtrlToProps : Int := 1

section
variable (m : Masked)

-- queues tells whether the pages and rings of the admin queue could be allocated
def resetController (queues : Bool) (props : CtrlProps) : Int × CtrlProps :=
  let cc := m.write props.cc 0 0 1
  if queues then
    let capCss := m.read props.cap 37 0xFF
    let cc := if (capCss >>> 7) &&& 1 ≠ 0 then m.write cc 0b111 4 0b111 else cc
    let cc := if (capCss >>> 6) &&& 1 ≠ 0 then m.write cc 0b110 4 0b111 else cc
    let cc := if (capCss >>> 6) &&& 1 = 0 ∧ (capCss >>> 0) &&& 1 = 1 then m.write cc 0b000 4 0b111 else cc
    let cc := m.write cc 0 7 0b1111
    let cc := m.write cc 0 11 0b111
    (0,{ props with cc := m.write cc 1 0 1 })
  else (-2,{ props with cc := cc })

def programmed (props : CtrlProps) : CtrlProps :=
  let props := (resetController m true props).2
  let cc := m.write props.cc 6 16 0xF
  { props with cc := m.write cc 4 20 0xF }

def controlNvmePci (transport : Transport) (command : Int) (data : Bool) : Bool × Transport :=
  if command = transportCtrlIden then (data,transport)
  else if command = transportCtrlToProps then (false,{ transport with exposed := command })
  else (false,transport)

def readNvmePci (transport : Transport) (buffer : Option CtrlProps) (size count : Nat) (file : Bool) :
    Nat × Option CtrlProps :=
  if buffer = none ∨ size = 0 ∨ count = 0 ∨ file = false then (0,buffer)
  else if transport.exposed = transportCtrlToProps then (size,some transport.props)
  else (0,buffer)

structure Command where
  opcode : BitVec 8
  cdw10 : BitVec 32
  cdw11 : BitVec 32
  deriving DecidableEq, Repr

structure Choice where
  sets : BitVec 64
  sent : List Command
  deriving DecidableEq, Repr

def propsSize : Nat := 0x1000

def enabledCmdSets (words : Nat → BitVec 64) : Nat × BitVec 64 :=
  match (List.range 512).find? fun i => words i ≠ 0 with
  | some i => (i,words i)
  | none => (512,0)

/- props is what alloc returns, with the content the memory happens to have; words is the
page that the controller answers a command with. -/
def nvmeSetCommandSets (transport : Transport) (cntlid : BitVec 16) (props : Option CtrlProps)
    (words : Command → Nat → BitVec 64) : Choice × Transport :=
  let transport := (controlNvmePci transport transportCtrlToProps false).2
  match (readNvmePci transport props propsSize 1 false).2 with
  | none => (⟨-1,[]⟩,transport)
  | some props =>
    let cap := props.cap
    let cc := props.cc.setWidth 64
    if m.read cap 43 1 = 1 then
      let iocs : Command := ⟨0x6,0x1C ||| (cntlid.setWidth 32 <<< 16),0⟩
      let (i,enabled) := enabledCmdSets (words iocs)
      (⟨enabled,[iocs,⟨0x9,0x19,BitVec.ofNat 32 (i &&& 0xFF)⟩]⟩,transport)
    else if m.read cc 1 0b111 = 0 then (⟨0x1,[]⟩,transport)
    else (⟨0,[]⟩,transport)

end

/- The choice that registers call for: commands are sent for the sets just if CAP says so,
and otherwise the programmed CC.CSS decides. -/
structure Chooses (m : Masked) (registers : CtrlProps) (choice : Choice) : Prop where
  path : choice.sent ≠ [] ↔ registers.cap.getLsbD 43 = true
  plain : registers.cap.getLsbD 43 = false → choice.sets = if m.read registers.cc 4 0b111 = 0 then 0x1 else 0

/- The content of memory stands in for the registers: it has their CAP bit 43 and, without
it, bits 3:1 in the place of cc that are zero just if CC.CSS is. -/
def Mirrors (m : Masked) (registers content : CtrlProps) : Prop :=
  content.cap.getLsbD 43 = registers.cap.getLsbD 43 ∧
  (registers.cap.getLsbD 43 = false → (m.read content.cc 1 0b111 = 0 ↔ m.read registers.cc 4 0b111 = 0))

theorem cssKept (m : Masked) (cc : BitVec 32) (value shift n : Nat) (apart : 7 ≤ shift ∨ shift + n ≤ 4) :
    m.read (m.write cc value shift (2^n - 1)) 4 0b111 = m.read cc 4 0b111 :=
  readUnwritten m cc value shift n 4 3 (by omega) apart

theorem cssWritten (m : Masked) (cc : BitVec 32) (value : Nat) : m.read (m.write cc value 4 0b111) 4 0b111 = value % 8 :=
  readWritten m cc value 4 3 (by omega)

theorem programmedCss (m : Masked) (props : CtrlProps) : m.read (programmed m props).cc 4 0b111 =
    if props.cap.getLsbD 43 then 0b110
    else if props.cap.getLsbD 37 then 0
    else if props.cap.getLsbD 44 then 0b111
    else m.read props.cc 4 0b111 := by
  have bit (i : Nat) (low : i < 8) : (m.read props.cap 37 0xFF >>> i) &&& 1 = (props.cap.getLsbD (37 + i)).toNat := by
    have read := readTestBit m props.cap 37 8 i
    rw [decide_eq_true low,Bool.true_and] at read
    rw [Nat.and_one_is_mod,Nat.shiftRight_eq_div_pow,← read]
    exact (Nat.toNat_testBit _ i).symm
  have others (cc : BitVec 32) : m.read (m.write (m.write (m.write (m.write (m.write cc 0 7 0b1111) 0 11 0b111) 1 0 1)
      6 16 0xF) 4 20 0xF) 4 0b111 = m.read cc 4 0b111 :=
    (cssKept m _ 4 20 4 (by omega)).trans ((cssKept m _ 6 16 4 (by omega)).trans ((cssKept m _ 1 0 1 (by omega)).trans
      ((cssKept m _ 0 11 3 (by omega)).trans (cssKept m _ 0 7 4 (by omega)))))
  have disabled := cssKept m props.cc 0 0 1 (by omega)
  change m.read (m.write (m.write (m.write (m.write (m.write _ 0 7 0b1111) 0 11 0b111) 1 0 1) 6 16 0xF) 4 20 0xF) 4 0b111 = _
  rw [others,bit 7 (by omega),bit 6 (by omega),bit 0 (by omega)]
  cases iocs : props.cap.getLsbD 43 with
  | true => simp [cssWritten]
  | false =>
    cases nvm : props.cap.getLsbD 37 with
    | true => simp [cssWritten]
    | false =>
      cases only : props.cap.getLsbD 44 with
      | true => simp [cssWritten]
      | false => simpa using disabled

section
variable {m : Masked} {transport : Transport} {cntlid : BitVec 16} {words : Command → Nat → BitVec 64}

theorem choiceOf (content : CtrlProps) : (nvmeSetCommandSets m transport cntlid (some content) words).1 =
    if content.cap.getLsbD 43 then
      let iocs : Command := ⟨0x6,0x1C ||| (cntlid.setWidth 32 <<< 16),0⟩
      let (i,enabled) := enabledCmdSets (words iocs)
      ⟨enabled,[iocs,⟨0x9,0x19,BitVec.ofNat 32 (i &&& 0xFF)⟩]⟩
    else ⟨if m.read content.cc 1 0b111 = 0 then 0x1 else 0,[]⟩ := by
  have same : m.read (content.cc.setWidth 64) 1 0b111 = m.read content.cc 1 0b111 := by
    rw [m.reads,m.reads,BitVec.toNat_ushiftRight,BitVec.toNat_ushiftRight,BitVec.toNat_setWidth,
      Nat.mod_eq_of_lt (by omega)]
  have nothing : ∀ t, readNvmePci t (some content) propsSize 1 false = (0,some content) := by
    intro t
    simp [readNvmePci]
  unfold nvmeSetCommandSets
  simp only [nothing,same]
  cases iocs : content.cap.getLsbD 43 with
  | true => rw [if_pos ((readBitOne m content.cap 43).mpr iocs)]; rfl
  | false =>
    rw [if_neg fun one => by rw [(readBitOne m content.cap 43).mp one] at iocs; cases iocs]
    split <;> rfl

theorem sentIff {content : CtrlProps} :
    (nvmeSetCommandSets m transport cntlid (some content) words).1.sent ≠ [] ↔ content.cap.getLsbD 43 = true := by
  rw [choiceOf]
  cases content.cap.getLsbD 43 <;> simp

theorem setsPlain {content : CtrlProps} (plain : content.cap.getLsbD 43 = false) :
    (nvmeSetCommandSets m transport cntlid (some content) words).1.sets =
      if m.read content.cc 1 0b111 = 0 then 0x1 else 0 := by
  rw [choiceOf,plain]
  rfl

theorem choosesMirrors {registers content : CtrlProps} :
    Chooses m registers (nvmeSetCommandSets m transport cntlid (some content) words).1 ↔ Mirrors m registers content := by
  constructor
  · intro chooses
    have same : content.cap.getLsbD 43 = registers.cap.getLsbD 43 := Bool.eq_iff_iff.mpr (sentIff.symm.trans chooses.path)
    refine ⟨same,fun plain => ?_⟩
    have answers := (setsPlain (same.trans plain)).symm.trans (chooses.plain plain)
    by_cases stale : m.read content.cc 1 0b111 = 0 <;> by_cases css : m.read registers.cc 4 0b111 = 0 <;>
      simp [stale,css] at answers ⊢
  · intro mirrors
    refine ⟨sentIff.trans (by rw [mirrors.1]),fun plain => ?_⟩
    exact (setsPlain (mirrors.1.trans plain)).trans (if_congr (mirrors.2 plain) rfl rfl)

theorem commandSetsMirrored {registers one other : CtrlProps} (first : Mirrors m registers one)
    (second : Mirrors m registers other) : (nvmeSetCommandSets m transport cntlid (some one) words).1 =
      (nvmeSetCommandSets m transport cntlid (some other) words).1 := by
  rw [choiceOf,choiceOf,first.1,second.1]
  cases plain : registers.cap.getLsbD 43 with
  | true =>
    rw [if_pos rfl,if_pos rfl]
  | false =>
    have same := (first.2 plain).trans (second.2 plain).symm
    exact congrArg (Choice.mk · []) (if_congr same rfl rfl)

end

structure Decided (m : Masked) (before : CtrlProps) (exposed : Int) (cntlid : BitVec 16)
    (words : Command → Nat → BitVec 64) (one other : CtrlProps) : Prop where
  first : Chooses m (programmed m before) (nvmeSetCommandSets m ⟨programmed m before,exposed⟩ cntlid (some one) words).1
  second : Chooses m (programmed m before)
    (nvmeSetCommandSets m ⟨programmed m before,exposed⟩ cntlid (some other) words).1
  same : (nvmeSetCommandSets m ⟨programmed m before,exposed⟩ cntlid (some one) words).1 =
    (nvmeSetCommandSets m ⟨programmed m before,exposed⟩ cntlid (some other) words).1

/-- The registers decide on the command sets exactly when the memory got from alloc happens to
hold what the choice is made by. -/
theorem decidedIff (m : Masked) (before : CtrlProps) (exposed : Int) (cntlid : BitVec 16)
    (words : Command → Nat → BitVec 64) (one other : CtrlProps) :
    Decided m before exposed cntlid words one other ↔
      Mirrors m (programmed m before) one ∧ Mirrors m (programmed m before) other := by
  constructor
  · intro decided
    exact ⟨choosesMirrors.mp decided.first,choosesMirrors.mp decided.second⟩
  · intro both
    obtain ⟨first,second⟩ := both
    exact ⟨choosesMirrors.mpr first,choosesMirrors.mpr second,commandSetsMirrored first second⟩

theorem onesMisread : ¬ ∀ (m : Masked) (before : CtrlProps) (exposed : Int) (cntlid : BitVec 16)
    (words : Command → Nat → BitVec 64) (one other : CtrlProps), Decided m before exposed cntlid words one other := by
  intro all
  have decided := all .standard ⟨1 <<< 37,0⟩ 0 1 (fun _ _ => 0) ⟨-1,-1⟩ ⟨0,0⟩
  have stale := (choosesMirrors.mp decided.first).1
  exact absurd stale (by decide)

end Kdrivers.NvmeCommandSets
