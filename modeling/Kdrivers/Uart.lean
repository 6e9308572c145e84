import Kdrivers.BitFields

/-! The serial port (uart.c): what any sequence of its driver's functions leaves on the line
of a chip whose divisor latch is behind the data and interrupt registers. -/
namespace Kdrivers.Uart
open BitFields (Masked)

/- The registers of the chip, newest byte sent first. identify is what its identification
register shows by whether the FIFOs are on. -/
structure Chip where
  low : BitVec 8
  high : BitVec 8
  line : BitVec 8
  interrupts : BitVec 8
  fifos : Bool
  identify : Bool → BitVec 8
  sent : List (BitVec 8)

/- The write of a register by its offset. The divisor latch bit is bit 7 of the line control
register. -/
def Chip.outb (u : Chip) (offset : Nat) (v : BitVec 8) : Chip :=
  match offset with
  | 0 => if u.line.getLsbD 7 then { u with low := v } else { u with sent := v::u.sent }
  | 1 => if u.line.getLsbD 7 then { u with high := v } else { u with interrupts := v }
  | 2 => { u with fifos := v.getLsbD 0 }
  | 3 => { u with line := v }
  | _ => u

section
variable (m : Masked) (u : Chip)

def setBuadRateDivisor (divisor : BitVec 16) : Chip :=
  let dlab := m.write u.line 1 7 1
  let u := u.outb 3 dlab
  let u := u.outb 0 ((divisor &&& 0xFF).setWidth 8)
  let u := u.outb 1 ((divisor >>> 8 &&& 0xFF).setWidth 8)
  u.outb 3 (m.write dlab 0 7 1)

def getDataBits : Nat := m.read u.line 0 0b11 + 5

def setDataBits (bits : BitVec 32) : Chip := u.outb 3 (m.write u.line (bits - 5).toNat 0 0b11)

def NO_PARITY : BitVec 32 := -1

def getParity : BitVec 32 :=
  if m.read u.line 3 0b001 = 0 then NO_PARITY else BitVec.ofNat 32 (m.read u.line 4 0b11)

def setParity (parity : BitVec 32) : Chip :=
  if parity = NO_PARITY then u.outb 3 (m.write u.line 0 3 0b111)
  else u.outb 3 (m.write u.line (parity <<< 1 ||| 1).toNat 3 0b111)

def getStopBits : BitVec 32 := if m.read u.line 2 0b1 = 0 then 1 else 3

-- one and a half or two stop bits are one setting
def setStopBits (count : BitVec 32) : Chip :=
  if count = 1 then u.outb 3 (m.write u.line 0 2 0b1)
  else if count = 2 ∨ count = 3 then u.outb 3 (m.write u.line 1 2 0b1)
  else u.outb 3 u.line

def clearTxFifo : Chip := u.outb 2 (1 <<< 2)
def clearRxFifo : Chip := u.outb 2 (1 <<< 1)

def enableFifos : Int × Chip :=
  let u := u.outb 2 1
  (if m.read (u.identify u.fifos) 6 0b11 ≥ 0b10 then 0 else -1,u)

structure DeviceIo where
  length : Int
  base : BitVec 32
  align : BitVec 32

structure DriverState where
  portBase : BitVec 32
  align : BitVec 32
  dataLen : Int

def initUart (args : Option DeviceIo) (granted : Bool) : Int × Option DriverState × Chip :=
  match args with
  | none => (-1,none,u)
  | some io =>
    if granted then
      let u := setDataBits m u 8
      let u := setParity m u NO_PARITY
      (0,some ⟨io.base,io.align,io.length⟩,setStopBits m u 1)
    else (-2,none,u)

end

inductive Call where
  | divisor (value : BitVec 16)
  | dataBits (value : BitVec 32)
  | parity (value : BitVec 32)
  | stopBits (value : BitVec 32)
  | clearTx
  | clearRx
  | enable

def Call.run (m : Masked) (u : Chip) : Call → Chip
  | .divisor value => setBuadRateDivisor m u value
  | .dataBits value => setDataBits m u value
  | .parity value => setParity m u value
  | .stopBits value => setStopBits m u value
  | .clearTx => clearTxFifo u
  | .clearRx => clearRxFifo u
  | .enable => (enableFifos m u).2

structure Line where
  divisor : BitVec 16
  dataBits : Nat
  parity : BitVec 32
  stopBits : BitVec 32
  fifos : Bool
  latch : Bool
  deriving DecidableEq, Repr

def Line.after (l : Line) : Call → Line
  | .divisor value => { l with divisor := value, latch := false }
  | .dataBits value => { l with dataBits := (value - 5).toNat % 4 + 5 }
  | .parity value => { l with parity := if value = NO_PARITY then NO_PARITY else value &&& 3 }
  | .stopBits value => { l with stopBits := if value = 1 then 1 else if value = 2 ∨ value = 3 then 3 else l.stopBits }
  | .clearTx => { l with fifos := false }
  | .clearRx => { l with fifos := false }
  | .enable => { l with fifos := true }

theorem settingNamed (l : Line) (value : BitVec 32) :
    (5 ≤ value ∧ value ≤ 8 → (l.after (.dataBits value)).dataBits = value.toNat) ∧
      (value < 4 → (l.after (.parity value)).parity = value) := by
  constructor
  · intro range
    change (value - 5).toNat % 4 + 5 = value.toNat
    obtain ⟨least,most⟩ := range
    bv_omega
  · intro small
    have some : value ≠ NO_PARITY := by
      rintro rfl
      exact absurd small (by decide)
    have masked : (value &&& 3).toNat = value.toNat := by
      rw [BitVec.toNat_and]
      exact (Nat.and_two_pow_sub_one_eq_mod value.toNat 2).trans (Nat.mod_eq_of_lt small)
    change (if value = NO_PARITY then NO_PARITY else value &&& 3) = value
    rw [if_neg some]
    exact BitVec.eq_of_toNat_eq masked

def Chip.shown (m : Masked) (u : Chip) : Line :=
  ⟨u.high ++ u.low,getDataBits m u,getParity m u,getStopBits m u,u.fifos,u.line.getLsbD 7⟩

structure Kept (u v : Chip) : Prop where
  sent : v.sent = u.sent
  interrupts : v.interrupts = u.interrupts
  held : v.line.getLsbD 6 = u.line.getLsbD 6
  identify : v.identify = u.identify

section
variable (m : Masked) (u : Chip)

theorem keptRefl : Kept u u := ⟨rfl,rfl,rfl,rfl⟩

theorem keptTrans {u v w : Chip} (first : Kept u v) (next : Kept v w) : Kept u w :=
  ⟨next.sent.trans first.sent,next.interrupts.trans first.interrupts,next.held.trans first.held,
    next.identify.trans first.identify⟩

theorem highOther (value shift n : Nat) (inside : shift + n ≤ 6) {j : Nat} (least : 6 ≤ j) (most : j < 8) :
    (u.outb 3 (m.write u.line value shift (2^n - 1))).line.getLsbD j = u.line.getLsbD j := by
  change (m.write u.line value shift (2^n - 1)).getLsbD j = _
  rw [BitFields.writeField m u.line value shift n most,if_neg (by omega)]

theorem keptLine (value shift n : Nat) (inside : shift + n ≤ 6) :
    Kept u (u.outb 3 (m.write u.line value shift (2^n - 1))) :=
  ⟨rfl,rfl,highOther m u value shift n inside (by decide) (by decide),rfl⟩

theorem dataBitsOther (value shift n : Nat) (apart : 2 ≤ shift) :
    getDataBits m (u.outb 3 (m.write u.line value shift (2^n - 1))) = getDataBits m u :=
  congrArg (· + 5) (BitFields.readUnwritten m u.line value shift n 0 2 (by decide) (.inl apart))

theorem stopBitsOther (value shift n : Nat) (apart : 3 ≤ shift ∨ shift + n ≤ 2) :
    getStopBits m (u.outb 3 (m.write u.line value shift (2^n - 1))) = getStopBits m u := by
  have same := BitFields.readUnwritten m u.line value shift n 2 1 (by decide) apart
  exact congrArg (fun bit => if bit = 0 then (1 : BitVec 32) else 3) same

theorem parityOther (value shift n : Nat) (apart : 6 ≤ shift ∨ shift + n ≤ 3) :
    getParity m (u.outb 3 (m.write u.line value shift (2^n - 1))) = getParity m u := by
  have enable := BitFields.readUnwritten m u.line value shift n 3 1 (by decide) (by omega)
  have kind := BitFields.readUnwritten m u.line value shift n 4 2 (by decide) (by omega)
  unfold getParity
  exact congrArg₂ (fun bit kind => if bit = 0 then NO_PARITY else BitVec.ofNat 32 kind) enable kind

theorem parityBits (value : BitVec 32) (i : Nat) :
    (value <<< 1 ||| 1).toNat.testBit i = (decide (i = 0) || (decide (i < 32) && value.getLsbD (i - 1))) := by
  change (value <<< 1 ||| 1#32).getLsbD i = _
  rw [BitVec.getLsbD_or,BitVec.getLsbD_shiftLeft,BitVec.getLsbD_one]
  cases i with
  | zero => simp
  | succ i => simp

theorem parityEnabled (value : BitVec 32) : (value <<< 1 ||| 1).toNat % 2 = 1 := by
  have bit := parityBits value 0
  rw [Nat.testBit_zero] at bit
  exact of_decide_eq_true bit

theorem parityKind (value : BitVec 32) : BitVec.ofNat 32 ((value <<< 1 ||| 1).toNat / 2 % 4) = value &&& 3 := by
  apply BitVec.eq_of_getLsbD_eq
  intro i inside
  have mask : BitVec.getLsbD (3 : BitVec 32) i = decide (i < 2) := by
    revert i
    decide
  rw [BitVec.getLsbD_ofNat,BitVec.getLsbD_and,show (4 : Nat) = 2^2 from rfl,Nat.testBit_mod_two_pow,Nat.testBit_div_two,
    parityBits,mask]
  by_cases low : i < 2
  · simp [low,inside,show i + 1 < 32 by omega]
  · simp [low]

theorem divisorBytes (value : BitVec 16) :
    (value >>> 8 &&& 0xFF).setWidth 8 ++ (value &&& 0xFF).setWidth 8 = value := by
  have mask : ∀ i (low : i < 8), (0xFF#8)[i] = true := by decide
  apply BitVec.eq_of_getLsbD_eq
  intro i inside
  rw [BitVec.getLsbD_append]
  by_cases low : i < 8
  · simp [low,mask i low]
  · have high : i - 8 < 8 := by omega
    simp [low,high,mask (i - 8) high,show 8 + (i - 8) = i by omega]

theorem dataBitsSet (value : BitVec 32) : (setDataBits m u value).shown m = (u.shown m).after (.dataBits value) ∧
    Kept u (setDataBits m u value) := by
  have bits : getDataBits m (setDataBits m u value) = (value - 5).toNat % 4 + 5 :=
    congrArg (· + 5) (BitFields.readWritten m u.line (value - 5).toNat 0 2 (by decide))
  have parity : getParity m (setDataBits m u value) = getParity m u := parityOther m u _ 0 2 (by decide)
  have stop : getStopBits m (setDataBits m u value) = getStopBits m u := stopBitsOther m u _ 0 2 (by decide)
  have latch : (setDataBits m u value).line.getLsbD 7 = u.line.getLsbD 7 :=
    highOther m u _ 0 2 (by decide) (by decide) (by decide)
  refine ⟨?_,keptLine m u _ 0 2 (by decide)⟩
  unfold Chip.shown
  rw [bits,parity,stop,latch]
  rfl

theorem parityWritten (value : Nat) : getParity m (u.outb 3 (m.write u.line value 3 0b111)) =
    if value % 2 = 0 then NO_PARITY else BitVec.ofNat 32 (value / 2 % 4) := by
  have enable := BitFields.readWithin m u.line value 3 3 3 1 (by decide) (by decide)
  have kind := BitFields.readWithin m u.line value 3 3 4 2 (by decide) (by decide)
  rw [Nat.sub_self,Nat.pow_zero,Nat.div_one] at enable
  exact congrArg₂ (fun bit kind => if bit = 0 then NO_PARITY else BitVec.ofNat 32 kind) enable kind

theorem paritySet (value : BitVec 32) : (setParity m u value).shown m = (u.shown m).after (.parity value) ∧
    Kept u (setParity m u value) := by
  have written (field : Nat) (parity : BitVec 32)
      (read : (if field % 2 = 0 then NO_PARITY else BitVec.ofNat 32 (field / 2 % 4)) = parity) :
      (u.outb 3 (m.write u.line field 3 0b111)).shown m = { u.shown m with parity := parity } := by
    have bits : getDataBits m (u.outb 3 (m.write u.line field 3 0b111)) = getDataBits m u :=
      dataBitsOther m u field 3 3 (by decide)
    have stop : getStopBits m (u.outb 3 (m.write u.line field 3 0b111)) = getStopBits m u :=
      stopBitsOther m u field 3 3 (by decide)
    have latch : (u.outb 3 (m.write u.line field 3 0b111)).line.getLsbD 7 = u.line.getLsbD 7 :=
      highOther m u field 3 3 (by decide) (by decide) (by decide)
    unfold Chip.shown
    rw [bits,parityWritten,read,stop,latch]
    rfl
  unfold setParity
  split
  · rename_i none
    refine ⟨?_,keptLine m u _ 3 3 (by decide)⟩
    rw [written 0 NO_PARITY rfl,Line.after,if_pos none]
  · rename_i some
    refine ⟨?_,keptLine m u _ 3 3 (by decide)⟩
    rw [written _ (value &&& 3) ?_,Line.after,if_neg some]
    rw [if_neg (by rw [parityEnabled]; decide),parityKind]

theorem stopBitsSet (value : BitVec 32) : (setStopBits m u value).shown m = (u.shown m).after (.stopBits value) ∧
    Kept u (setStopBits m u value) := by
  have written (bit : Nat) : (u.outb 3 (m.write u.line bit 2 0b1)).shown m =
      { u.shown m with stopBits := if bit % 2 = 0 then 1 else 3 } := by
    have bits : getDataBits m (u.outb 3 (m.write u.line bit 2 0b1)) = getDataBits m u :=
      dataBitsOther m u bit 2 1 (by decide)
    have parity : getParity m (u.outb 3 (m.write u.line bit 2 0b1)) = getParity m u :=
      parityOther m u bit 2 1 (by decide)
    have stop : getStopBits m (u.outb 3 (m.write u.line bit 2 0b1)) = if bit % 2 = 0 then 1 else 3 :=
      congrArg (fun bit => if bit = 0 then (1 : BitVec 32) else 3)
        (BitFields.readWritten m u.line bit 2 1 (by decide))
    have latch : (u.outb 3 (m.write u.line bit 2 0b1)).line.getLsbD 7 = u.line.getLsbD 7 :=
      highOther m u bit 2 1 (by decide) (by decide) (by decide)
    unfold Chip.shown
    rw [bits,parity,stop,latch]
    rfl
  unfold setStopBits Line.after
  dsimp only
  split
  · exact ⟨written 0,keptLine m u _ 2 1 (by decide)⟩
  · split
    · exact ⟨written 1,keptLine m u _ 2 1 (by decide)⟩
    · exact ⟨rfl,rfl,rfl,rfl,rfl⟩

theorem divisorSet (value : BitVec 16) : (setBuadRateDivisor m u value).shown m = (u.shown m).after (.divisor value) ∧
    Kept u (setBuadRateDivisor m u value) := by
  have latched : (m.write u.line 1 7 1).getLsbD 7 = true := BitFields.writeBit m u.line 1 (by decide)
  have closed : (m.write (m.write u.line 1 7 1) 0 7 1).getLsbD 7 = false := BitFields.writeBit m _ 0 (by decide)
  have held : (m.write (m.write u.line 1 7 1) 0 7 1).getLsbD 6 = u.line.getLsbD 6 := by
    rw [BitFields.writeOther m _ 0 (by decide),BitFields.writeOther m _ 1 (by decide)]
  have whole : setBuadRateDivisor m u value =
      { u with
        low := (value &&& 0xFF).setWidth 8
        high := (value >>> 8 &&& 0xFF).setWidth 8
        line := m.write (m.write u.line 1 7 1) 0 7 1 } := by
    simp [setBuadRateDivisor,Chip.outb,latched]
  have bits : getDataBits m (setBuadRateDivisor m u value) = getDataBits m u := by
    rw [whole]
    exact (dataBitsOther m (u.outb 3 _) 0 7 1 (by decide)).trans (dataBitsOther m u 1 7 1 (by decide))
  have parity : getParity m (setBuadRateDivisor m u value) = getParity m u := by
    rw [whole]
    exact (parityOther m (u.outb 3 _) 0 7 1 (by decide)).trans (parityOther m u 1 7 1 (by decide))
  have stop : getStopBits m (setBuadRateDivisor m u value) = getStopBits m u := by
    rw [whole]
    exact (stopBitsOther m (u.outb 3 _) 0 7 1 (by decide)).trans (stopBitsOther m u 1 7 1 (by decide))
  constructor
  · unfold Chip.shown
    rw [bits,parity,stop,whole,divisorBytes,closed]
    rfl
  · rw [whole]
    exact ⟨rfl,rfl,held,rfl⟩

theorem fifosSet (v : BitVec 8) : (u.outb 2 v).shown m = { u.shown m with fifos := v.getLsbD 0 } ∧ Kept u (u.outb 2 v) :=
  ⟨rfl,rfl,rfl,rfl,rfl⟩

theorem callSpec (call : Call) : (call.run m u).shown m = (u.shown m).after call ∧ Kept u (call.run m u) := by
  cases call with
  | divisor value => exact divisorSet m u value
  | dataBits value => exact dataBitsSet m u value
  | parity value => exact paritySet m u value
  | stopBits value => exact stopBitsSet m u value
  | clearTx => exact fifosSet m u _
  | clearRx => exact fifosSet m u _
  | enable => exact fifosSet m u _

end

theorem callsSpec (m : Masked) (calls : List Call) (u : Chip) :
    (calls.foldl (Call.run m) u).shown m = calls.foldl Line.after (u.shown m) ∧ Kept u (calls.foldl (Call.run m) u) := by
  induction calls generalizing u with
  | nil => exact ⟨rfl,keptRefl u⟩
  | cons call rest ih =>
    obtain ⟨shown,kept⟩ := callSpec m u call
    obtain ⟨later,still⟩ := ih (call.run m u)
    exact ⟨later.trans (by rw [shown]; rfl),keptTrans kept still⟩

/-- A port that init_uart brought up has 8 data bits, no parity and one stop bit, whatever it had
before, and after any calls of the driver it reads back as its line was last set: the divisor
as it is, data bits, parity and stop bits by their encodings, and the FIFOs on only if nothing
was cleared since they were turned on. The divisor latch stays as it was until a divisor is set,
which closes it. Nothing is sent, no interrupt is enabled or disabled and the break setting stays. -/
theorem lineConfigured (m : Masked) (u : Chip) (io : DeviceIo) (calls : List Call) :
    ∃ v, initUart m u (some io) true = (0,some ⟨io.base,io.align,io.length⟩,v) ∧
      (calls.foldl (Call.run m) v).shown m = calls.foldl Line.after ⟨u.high ++ u.low,8,NO_PARITY,1,u.fifos,u.line.getLsbD 7⟩ ∧
      Kept u (calls.foldl (Call.run m) v) := by
  obtain ⟨shown,kept⟩ := callsSpec m [.dataBits 8,.parity NO_PARITY,.stopBits 1] u
  obtain ⟨later,still⟩ := callsSpec m calls (([.dataBits 8,.parity NO_PARITY,.stopBits 1] : List Call).foldl (Call.run m) u)
  refine ⟨_,rfl,?_,keptTrans kept still⟩
  exact later.trans (by rw [shown]; rfl)

end Kdrivers.Uart
