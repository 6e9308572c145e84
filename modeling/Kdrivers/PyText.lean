import Mathlib.Algebra.Group.Nat.Defs
import Mathlib.Data.List.DropRight
import Mathlib.Data.List.Infix

/-! Text as Python has it: what it holds, without the white space around it, cut at a character,
and read as an integer. -/
namespace Kdrivers.PyText

abbrev Text := List Char

def spaces : List (Nat × Nat) :=
  [(0x9,0xD),(0x1C,0x20),(0x85,0x85),(0xA0,0xA0),(0x1680,0x1680),(0x2000,0x200A),(0x2028,0x2029),(0x202F,0x202F),
    (0x205F,0x205F),(0x3000,0x3000)]

def isSpace (c : Char) : Bool := spaces.any fun range => range.1 ≤ c.toNat && c.toNat ≤ range.2

def holds (part text : Text) : Bool := decide (part <:+: text)
def trim (p : Char → Bool) (text : Text) : Text := (text.dropWhile p).rdropWhile p
def strip (text : Text) : Text := trim isSpace text

def without (c : Char) (text : Text) : Text := text.filter fun d => d ≠ c

def first (c : Char) (text : Text) : Text := text.takeWhile fun d => d ≠ c
def second (c : Char) (text : Text) : Text := first c (text.dropWhile fun d => d ≠ c).tail

def isBlank (c : Char) : Bool := (0x9 ≤ c.toNat && c.toNat ≤ 0xD) || c.toNat = 0x20

/- Digits, with an underscore at most between two of them, and no more than the limit of Python. -/
def Numeral (ds : Text) : Prop :=
  ds.head?.any Char.isDigit = true ∧ ds.getLast?.any Char.isDigit = true ∧ (ds.all fun c => c.isDigit || c = '_') = true ∧
  ¬ ['_','_'] <:+: ds ∧ (without '_' ds).length ≤ 4300
instance (ds) : Decidable (Numeral ds) := by unfold Numeral; infer_instance

def natural (ds : Text) : Option Nat := if Numeral ds then some (Nat.ofDigitChars 10 (without '_' ds) 0) else none

def signed : Text → Option Int
  | '-'::ds => (natural ds).map fun n : Nat => -(n : Int)
  | '+'::ds => (natural ds).map Int.ofNat
  | ds => (natural ds).map Int.ofNat

/- int of a text; none is a ValueError. foreign is what it makes of characters beyond ASCII. -/
def int (foreign : Text → Option Int) (text : Text) : Option Int :=
  if text.any fun c => 127 < c.toNat then foreign text
  else signed (trim isBlank text)

def decimal (v : Int) : Text := if v < 0 then '-'::Nat.toDigits 10 v.natAbs else Nat.toDigits 10 v.natAbs

theorem eachChar {P : Char → Prop} [DecidablePred P] {text : Text} (all : (text.all fun c => P c) = true) :
    ∀ c ∈ text, P c :=
  fun c mem => of_decide_eq_true (List.all_eq_true.mp all c mem)

theorem trimCore {p : Char → Bool} {before core after : Text} (blanks : ∀ c ∈ before, p c = true)
    (trailing : ∀ c ∈ after, p c = true) {a b : Char} (starts : core.head? = some a) (ends : core.getLast? = some b)
    (head : p a = false) (last : p b = false) : trim p (before ++ (core ++ after)) = core := by
  obtain ⟨rest,rfl⟩ := List.head?_eq_some_iff.mp starts
  have front : (before ++ (a::rest ++ after)).dropWhile p = a::rest ++ after := by
    rw [List.dropWhile_append_of_pos blanks]
    exact List.dropWhile_cons_of_neg (by rw [head]; exact Bool.false_ne_true)
  obtain ⟨init,whole⟩ := List.getLast?_eq_some_iff.mp ends
  rw [trim,front,whole,List.rdropWhile,List.reverse_append,List.dropWhile_append_of_pos (by simpa using trailing),
    List.reverse_append,List.reverse_singleton,List.singleton_append,
    List.dropWhile_cons_of_neg (by rw [last]; exact Bool.false_ne_true)]
  simp

theorem firstWhole {c : Char} {text : Text} (absent : c ∉ text) : first c text = text :=
  List.takeWhile_eq_self_iff.mpr fun d mem => by
    simpa using fun same : d = c => absent (same ▸ mem)

theorem firstPart {c : Char} {a : Text} (absent : c ∉ a) (b : Text) : first c (a ++ c::b) = a := by
  rw [first,List.takeWhile_append_of_pos fun d mem => by simpa using fun same : d = c => absent (same ▸ mem)]
  simp

theorem secondPart {c : Char} {a b : Text} (absent : c ∉ a) (none : c ∉ b) : second c (a ++ c::b) = b := by
  rw [second,List.dropWhile_append_of_pos fun d mem => by simpa using fun same : d = c => absent (same ▸ mem)]
  simpa using firstWhole none

theorem withoutSelf {c : Char} {text : Text} (absent : c ∉ text) : without c text = text :=
  List.filter_eq_self.mpr fun d mem => by simpa using fun same : d = c => absent (same ▸ mem)

theorem digitRange {c : Char} (digit : c.isDigit = true) : 48 ≤ c.toNat ∧ c.toNat ≤ 57 := by
  simp only [Char.isDigit,ge_iff_le,Bool.and_eq_true,decide_eq_true_eq,UInt32.le_iff_toNat_le] at digit
  exact digit

theorem digitNotBlank {c : Char} (digit : c.isDigit = true) : isBlank c = false := by
  have range := digitRange digit
  simp only [isBlank,Bool.or_eq_false_iff,Bool.and_eq_false_iff,decide_eq_false_iff_not]
  omega

theorem digitsNumeral {ds : Text} (digits : ∀ c ∈ ds, c.isDigit = true) (some_ : ds ≠ []) (short : ds.length ≤ 4300) :
    natural ds = some (Nat.ofDigitChars 10 ds 0) := by
  have plain : '_' ∉ ds := fun mem => absurd (digits _ mem) (by decide)
  have same := withoutSelf plain
  have numeral : Numeral ds := by
    obtain ⟨a,rest,rfl⟩ := List.exists_cons_of_ne_nil some_
    have shape : ((a::rest).all fun c => c.isDigit || c = '_') = true :=
      List.all_eq_true.mpr fun c mem => by rw [digits c mem,Bool.true_or]
    refine ⟨digits a List.mem_cons_self,?_,shape,fun pair => ?_,by rw [same]; exact short⟩
    · rw [List.getLast?_eq_some_getLast some_]
      exact digits _ (List.getLast_mem some_)
    · exact plain (pair.subset List.mem_cons_self)
  rw [natural,if_pos numeral,same]

theorem unsigned {ds : Text} {c : Char} (starts : ds.head? = some c) (digit : c.isDigit = true) :
    signed ds = (natural ds).map Int.ofNat := by
  obtain ⟨rest,rfl⟩ := List.head?_eq_some_iff.mp starts
  unfold signed
  split
  · rename_i same
    cases same
    cases digit
  · rename_i same
    cases same
    cases digit
  · rfl

theorem decimalEnds (v : Int) : ∃ a b, (decimal v).head? = some a ∧ (decimal v).getLast? = some b ∧
    (a = '-' ∨ a.isDigit = true) ∧ b.isDigit = true := by
  have digits : ∀ c ∈ Nat.toDigits 10 v.natAbs, c.isDigit = true := fun c mem =>
    Nat.isDigit_of_mem_toDigits (by decide) (by decide) mem
  obtain ⟨a,rest,shape⟩ := List.exists_cons_of_ne_nil (Nat.toDigits_ne_nil : Nat.toDigits 10 v.natAbs ≠ [])
  have some_ : a::rest ≠ [] := List.cons_ne_nil a rest
  rw [shape] at digits
  have last := digits _ (List.getLast_mem some_)
  unfold decimal
  rw [shape]
  split
  · exact ⟨'-',_,rfl,by rw [List.getLast?_cons_cons,List.getLast?_eq_some_getLast some_],.inl rfl,last⟩
  · exact ⟨a,_,rfl,List.getLast?_eq_some_getLast some_,.inr (digits a List.mem_cons_self),last⟩

theorem decimalChars {v : Int} {c : Char} (mem : c ∈ decimal v) : c = '-' ∨ c.isDigit = true := by
  unfold decimal at mem
  split at mem
  · rcases List.mem_cons.mp mem with rfl | digit
    · exact .inl rfl
    · exact .inr (Nat.isDigit_of_mem_toDigits (by decide) (by decide) digit)
  · exact .inr (Nat.isDigit_of_mem_toDigits (by decide) (by decide) mem)

/-- A decimal is read as the integer it is written for. -/
theorem intDecimal (foreign : Text → Option Int) {v : Int} (size : v.natAbs < 10^10) {before after : Text}
    (blanks : ∀ c ∈ before, isBlank c = true) (trailing : ∀ c ∈ after, isBlank c = true) :
    int foreign (before ++ (decimal v ++ after)) = some v := by
  have length : (Nat.toDigits 10 v.natAbs).length ≤ 10 := (Nat.length_toDigits_le_iff (by decide) (by decide)).mpr size
  have value : natural (Nat.toDigits 10 v.natAbs) = some v.natAbs := by
    have digits : ∀ c ∈ Nat.toDigits 10 v.natAbs, c.isDigit = true := fun c mem =>
      Nat.isDigit_of_mem_toDigits (by decide) (by decide) mem
    rw [digitsNumeral digits Nat.toDigits_ne_nil (by omega),Nat.ofDigitChars_ten_toDigits]
  have blankLow {c : Char} (blank : isBlank c = true) : c.toNat ≤ 127 := by
    simp only [isBlank,Bool.or_eq_true,Bool.and_eq_true,decide_eq_true_eq] at blank
    omega
  have ascii : ((before ++ (decimal v ++ after)).any fun c => 127 < c.toNat) = false := by
    refine List.any_eq_false.mpr fun c mem => ?_
    have low : c.toNat ≤ 127 := by
      rcases List.mem_append.mp mem with front | mem
      · exact blankLow (blanks c front)
      · rcases List.mem_append.mp mem with digit | back
        · rcases decimalChars digit with rfl | digit
          · decide
          · have range := digitRange digit
            omega
        · exact blankLow (trailing c back)
    simpa using low
  obtain ⟨a,b,starts,ends,front,last⟩ := decimalEnds v
  have head : isBlank a = false := by
    rcases front with rfl | digit
    · decide
    · exact digitNotBlank digit
  rw [int,ascii,if_neg Bool.false_ne_true,trimCore blanks trailing starts ends head (digitNotBlank last)]
  by_cases negative : v < 0
  · have written : decimal v = '-'::Nat.toDigits 10 v.natAbs := if_pos negative
    have same : -(v.natAbs : Int) = v := by omega
    rw [written,signed,value]
    exact congrArg some same
  · have written : decimal v = Nat.toDigits 10 v.natAbs := if_neg negative
    have digit : a.isDigit = true := by
      rw [written] at starts
      exact Nat.isDigit_of_mem_toDigits (by decide) (by decide) (List.mem_of_mem_head? starts)
    have same : (v.natAbs : Int) = v := by omega
    rw [unsigned starts digit,written,value]
    exact congrArg some same

end Kdrivers.PyText
