import Mathlib.Algebra.Group.Int.Defs
import Kdrivers.DriverTables
import Kdrivers.PyText

/-! The enumeration of driver groups as gen_dri_defs.py reads it out of resource.h, line by
line, and as a C compiler does. -/
namespace Kdrivers.GroupEnum
open PyDict PyText

structure Scan where
  symbols : Dict Text Int
  recording : Bool
  idx : Int

def enumText : Text := "enum ARC_DRI_GROUP".toList
def endText : Text := "\x7d;".toList

def clean (line : Text) : Text := first ',' (without ' ' (strip line))

section
variable (foreign : Text → Option Int)

-- none is a ValueError of int, which nothing catches
def scanLine (s : Scan) (line : Text) : Option Scan :=
  if holds enumText line then some { s with recording := true }
  else
    let s := if holds endText line then { s with recording := false } else s
    if s.recording then do
      let (symbol,idx) ← if holds ['='] (clean line)
        then (int foreign (second '=' (clean line))).map fun idx => (first '=' (clean line),idx)
        else some (clean line,s.idx)
      some ⟨setItem s.symbols symbol idx,s.recording,idx + 1⟩
    else some s

def getGroupIndicesAndSymbols (lines : List Text) : Option (Dict Text Int) :=
  (lines.foldlM (scanLine foreign) ⟨[],false,0⟩).map Scan.symbols

end

def whites : Text := [' ','\t',Char.ofNat 11,Char.ofNat 12]
def nameChars : Text := "_ABCDEFGHIJKLMNOPQRSTUVWXYZabcdefghijklmnopqrstuvwxyz0123456789".toList

structure White where
  text : Text
  white : ∀ c ∈ text, c ∈ whites

def noWhite : White := ⟨[],fun _ none => nomatch none⟩

structure Identifier where
  text : Text
  chars : ∀ c ∈ text, c ∈ nameChars
  starts : text.head?.any (fun c => !c.isDigit) = true

structure Enumerator where
  indent : White
  name : Identifier
  gap : White
  value : Option (White × Int × White)
  comma : Option White

def valueText : Option (White × Int × White) → Text
  | none => []
  | some (gap,v,behind) => '='::(gap.text ++ (decimal v ++ behind.text))

def commaText : Option White → Text
  | none => []
  | some rest => ','::rest.text

def Enumerator.text (e : Enumerator) : Text :=
  e.indent.text ++ (e.name.text ++ (e.gap.text ++ (valueText e.value ++ (commaText e.comma ++ ['\n']))))

structure Comment where
  indent : White
  words : Text
  line : '\n' ∉ words ∧ '\r' ∉ words
  whole : (words.filter fun c => c ∉ whites).getLast? ≠ some (Char.ofNat 92)

def Comment.text (c : Comment) : Text := c.indent.text ++ ('/' :: '/' ::(c.words ++ ['\n']))

inductive Line where
  | enumerator (e : Enumerator)
  | blank (white : White)
  | comment (c : Comment)

def Line.text : Line → Text
  | .enumerator e => e.text
  | .blank white => white.text ++ ['\n']
  | .comment c => c.text

def Line.enumerator? : Line → Option Enumerator
  | .enumerator e => some e
  | _ => none

def enumerators (lines : List Line) : List Enumerator := lines.filterMap Line.enumerator?

def Enumerator.explicit (e : Enumerator) : Option Int := e.value.map fun value => value.2.1

def cValues : Int → List Enumerator → Dict Text Int
  | _,[] => []
  | next,e::rest => (e.name.text,e.explicit.getD next)::cValues (e.explicit.getD next + 1) rest

structure Body where
  lines : List Line
  names : ((enumerators lines).map fun e => e.name.text).Nodup
  commas : ∀ e ∈ (enumerators lines).dropLast, e.comma.isSome = true
  ints : ∀ symbol ∈ cValues 0 (enumerators lines), -2^31 ≤ symbol.2 ∧ symbol.2 < 2^31

structure ResourceFile where
  before : List Text
  body : Body
  after : List Text
  only : ∀ line ∈ before ++ after, holds enumText line = false

def ResourceFile.lines (file : ResourceFile) : List Text :=
  file.before ++ "enum ARC_DRI_GROUP \x7b\n".toList::(file.body.lines.map Line.text ++ "\x7d;\n".toList::file.after)

def Reads (foreign : Text → Option Int) (file : ResourceFile) : Prop :=
  ∃ symbols, getGroupIndicesAndSymbols foreign file.lines = some symbols ∧
    ∀ k v, item? symbols k = some v ↔ (k,v) ∈ cValues 0 (enumerators file.body.lines)

def Tight (e : Enumerator) : Prop := (e.value.isSome || e.comma.isSome) = true → ∀ c ∈ e.gap.text, c = ' '

/- Whether lines are recorded changes at a comment with the text that begins or ends the enumeration;
recorded are all enumerators, and no line that is not one. -/
def Clear : Bool → List Line → Prop
  | _,[] => True
  | recording,.enumerator e::rest => recording = true ∧ Tight e ∧ Clear recording rest
  | recording,.blank _::rest => recording = false ∧ Clear recording rest
  | recording,.comment c::rest =>
    if holds enumText c.text then Clear true rest
    else if holds endText c.text then Clear false rest
    else recording = false ∧ Clear recording rest

theorem whiteSpace : ∀ c ∈ whites, isSpace c = true := eachChar (by decide)
theorem whiteBlank : ∀ c ∈ whites, isBlank c = true := eachChar (by decide)
theorem whiteOthers : ∀ c ∈ whites, c ∉ [',','=','m','A','}'] := eachChar (by decide)
theorem nameOthers : ∀ c ∈ nameChars, isSpace c = false ∧ c ∉ [' ',',','=','}','/'] := eachChar (by decide)

theorem decimalOthers {v : Int} : ∀ c ∈ decimal v, isSpace c = false ∧ c ∉ [' ',',','=','m','A','}'] := by
  intro c mem
  rcases decimalChars mem with rfl | digit
  · decide
  · refine ⟨?_,fun other => ?_⟩
    · have range := digitRange digit
      simp only [isSpace,spaces,List.any_cons,List.any_nil,Bool.or_false,Bool.or_eq_false_iff,Bool.and_eq_false_iff,
        decide_eq_false_iff_not]
      omega
    · simp only [List.mem_cons,List.not_mem_nil,or_false] at other
      rcases other with rfl | rfl | rfl | rfl | rfl | rfl <;> cases digit

theorem whiteOther {c : Char} (other : c ∈ [',','=','m','A','}']) (w : White) : c ∉ w.text :=
  fun mem => whiteOthers c (w.white c mem) other

theorem nameOther {c : Char} (other : c ∈ [' ',',','=','}','/']) (name : Identifier) : c ∉ name.text :=
  fun mem => (nameOthers c (name.chars c mem)).2 other

theorem without_append (c : Char) (a b : Text) : without c (a ++ b) = without c a ++ without c b := List.filter_append ..

theorem withoutWhite (w : White) : ∀ c ∈ without ' ' w.text, c ∈ whites ∧ c ≠ ' ' := by
  intro c mem
  obtain ⟨inside,other⟩ := List.mem_filter.mp mem
  exact ⟨w.white c inside,by simpa using other⟩

def keptGap (e : Enumerator) : Text := if e.value.isSome || e.comma.isSome then without ' ' e.gap.text else []

def keptValue (e : Enumerator) : Text := match e.value with
  | none => []
  | some (gap,v,behind) =>
    '='::(without ' ' gap.text ++ (decimal v ++ if e.comma.isSome then without ' ' behind.text else []))

def key (e : Enumerator) : Text := e.name.text ++ keptGap e

theorem nameEnds (e : Enumerator) : ∃ a b, e.name.text.head? = some a ∧ e.name.text.getLast? = some b ∧
    isSpace a = false ∧ isSpace b = false := by
  have starts := e.name.starts
  cases shape : e.name.text with
  | nil =>
    rw [shape] at starts
    cases starts
  | cons a rest =>
    have some_ : a::rest ≠ [] := List.cons_ne_nil a rest
    have plain (c : Char) (mem : c ∈ a::rest) : isSpace c = false := (nameOthers c (e.name.chars c (shape ▸ mem))).1
    exact ⟨a,_,rfl,List.getLast?_eq_some_getLast some_,plain a List.mem_cons_self,plain _ (List.getLast_mem some_)⟩

theorem stripLine {before core after : Text} (blanks : ∀ c ∈ before, c ∈ whites) (trailing : ∀ c ∈ after, c ∈ whites)
    {a b : Char} (starts : core.head? = some a) (ends : core.getLast? = some b) (head : isSpace a = false)
    (last : isSpace b = false) : strip (before ++ (core ++ (after ++ ['\n']))) = core := by
  refine trimCore (fun c mem => whiteSpace c (blanks c mem)) (fun c mem => ?_) starts ends head last
  rcases List.mem_append.mp mem with white | newline
  · exact whiteSpace c (trailing c white)
  · rw [List.mem_singleton.mp newline]
    decide

theorem nameWithout (e : Enumerator) : without ' ' e.name.text = e.name.text :=
  withoutSelf (nameOther (by decide) e.name)

theorem decimalWithout (v : Int) : without ' ' (decimal v) = decimal v :=
  withoutSelf fun mem => (decimalOthers _ mem).2 (by decide)

theorem valueOther {c : Char} (other : c ∈ [',','A','}']) (value : Option (White × Int × White)) : c ∉ valueText value := by
  have known : ∀ c ∈ [',','A','}'], c ∈ [',','=','m','A','}'] ∧ c ∈ [' ',',','=','m','A','}'] ∧ c ≠ '=' :=
    eachChar (by decide)
  obtain ⟨blank,digit,sign⟩ := known c other
  cases value with
  | none => exact List.not_mem_nil
  | some value =>
    obtain ⟨before,v,behind⟩ := value
    have number : c ∉ decimal v := fun mem => (decimalOthers c mem).2 digit
    exact List.not_mem_cons_of_ne_of_not_mem sign (List.not_mem_append (whiteOther blank before)
      (List.not_mem_append number (whiteOther blank behind)))

theorem frontNoComma (name : Identifier) (gap : White) (value : Option (White × Int × White)) :
    ',' ∉ name.text ++ (gap.text ++ valueText value) :=
  List.not_mem_append (nameOther (by decide) name)
    (List.not_mem_append (whiteOther (by decide) gap) (valueOther (by decide) value))

theorem withoutSubset {c d : Char} {text : Text} (absent : d ∉ text) : d ∉ without c text :=
  fun mem => absent (List.mem_of_mem_filter mem)

theorem cleanComma {e : Enumerator} {rest : White} (comma : e.comma = some rest) : clean e.text = key e ++ keptValue e := by
  obtain ⟨a,_,starts,_,head,_⟩ := nameEnds e
  have shape : e.text = e.indent.text ++
      ((e.name.text ++ (e.gap.text ++ valueText e.value) ++ [',']) ++ (rest.text ++ ['\n'])) := by
    simp [Enumerator.text,comma,commaText]
  have core : strip e.text = e.name.text ++ (e.gap.text ++ valueText e.value) ++ [','] := by
    rw [shape]
    refine stripLine e.indent.white rest.white (a := a) (b := ',') ?_ ?_ head (by decide)
    · simp [List.head?_append,starts]
    · exact List.getLast?_concat
  have cut : clean e.text = without ' ' (e.name.text ++ (e.gap.text ++ valueText e.value)) := by
    rw [clean,core,without_append]
    exact firstPart (withoutSubset (frontNoComma e.name e.gap e.value)) []
  rw [cut,without_append,without_append,nameWithout,key,keptGap,comma,Option.isSome_some,Bool.or_true,if_pos rfl,
    List.append_assoc]
  cases value : e.value with
  | none => simp [valueText,keptValue,value,without]
  | some v =>
    obtain ⟨gap,v,behind⟩ := v
    have kept : keptValue e = '='::(without ' ' gap.text ++ (decimal v ++ without ' ' behind.text)) := by
      simp [keptValue,value,comma]
    have sign (text : Text) : without ' ' ('='::text) = '='::without ' ' text := rfl
    rw [kept,valueText,sign,without_append,without_append,decimalWithout]

theorem cleanLast {e : Enumerator} (comma : e.comma = none) : clean e.text = key e ++ keptValue e := by
  obtain ⟨a,b,starts,ends,head,last⟩ := nameEnds e
  cases value : e.value with
  | none =>
    have shape : e.text = e.indent.text ++ (e.name.text ++ (e.gap.text ++ ['\n'])) := by
      simp [Enumerator.text,comma,value,commaText,valueText]
    have core : strip e.text = e.name.text := by
      rw [shape]
      exact stripLine e.indent.white e.gap.white starts ends head last
    rw [clean,core,nameWithout,firstWhole (nameOther (by decide) e.name)]
    simp [key,keptGap,keptValue,value,comma]
  | some v =>
    obtain ⟨gap,v,behind⟩ := v
    have shape : e.text = e.indent.text ++
        ((e.name.text ++ (e.gap.text ++ '='::(gap.text ++ decimal v))) ++ (behind.text ++ ['\n'])) := by
      simp [Enumerator.text,comma,value,commaText,valueText]
    obtain ⟨_,d,_,final,_,_⟩ := decimalEnds v
    have core : strip e.text = e.name.text ++ (e.gap.text ++ '='::(gap.text ++ decimal v)) := by
      rw [shape]
      refine stripLine e.indent.white behind.white (a := a) (b := d) ?_ ?_ head (decimalOthers d (List.mem_of_getLast? final)).1
      · simp [List.head?_append,starts]
      · rw [← List.cons_append,← List.append_assoc,← List.append_assoc,List.getLast?_append,final]
        rfl
    have absent : ',' ∉ e.name.text ++ (e.gap.text ++ '='::(gap.text ++ decimal v)) := by
      have front := frontNoComma e.name e.gap (some (gap,v,noWhite))
      rwa [valueText,noWhite,List.append_nil] at front
    have kept : keptValue e = '='::(without ' ' gap.text ++ decimal v) := by
      simp [keptValue,value,comma]
    have sign (text : Text) : without ' ' ('='::text) = '='::without ' ' text := rfl
    rw [clean,core,firstWhole (withoutSubset absent),without_append,without_append,sign,without_append,nameWithout,
      decimalWithout,kept,key,keptGap,value,Option.isSome_some,Bool.true_or,if_pos rfl,List.append_assoc]

theorem cleanEnumerator (e : Enumerator) : clean e.text = key e ++ keptValue e := by
  cases comma : e.comma with
  | none => exact cleanLast comma
  | some rest => exact cleanComma comma

theorem keptGapWhite (e : Enumerator) : ∀ c ∈ keptGap e, c ∈ whites ∧ c ≠ ' ' := by
  unfold keptGap
  split
  · exact withoutWhite e.gap
  · exact fun _ none => nomatch none

theorem keyNoSign (e : Enumerator) : '=' ∉ key e :=
  List.not_mem_append (nameOther (by decide) e.name) fun gap => whiteOthers _ (keptGapWhite e _ gap).1 (by decide)

section
variable {foreign : Text → Option Int}

theorem enumeratorRecorded (foreign : Text → Option Int) {e : Enumerator} (size : ∀ v ∈ e.explicit, v.natAbs < 10^10)
    (plain : holds enumText e.text = false ∧ holds endText e.text = false) {s : Scan} (recording : s.recording = true) :
    scanLine foreign s e.text =
      some ⟨setItem s.symbols (key e) (e.explicit.getD s.idx),true,e.explicit.getD s.idx + 1⟩ := by
  rw [scanLine,plain.1,if_neg Bool.false_ne_true,plain.2,if_neg Bool.false_ne_true]
  dsimp only
  rw [if_pos recording,cleanEnumerator]
  cases value : e.value with
  | none =>
    have whole : key e ++ keptValue e = key e := by rw [keptValue,value,List.append_nil]
    have unsigned : holds ['='] (key e) = false := by
      rw [holds,decide_eq_false_iff_not,List.singleton_infix_iff]
      exact keyNoSign e
    rw [whole,unsigned,if_neg Bool.false_ne_true,recording,Enumerator.explicit,value]
    rfl
  | some v =>
    obtain ⟨gap,v,behind⟩ := v
    have bound : v.natAbs < 10^10 := size v (by rw [Enumerator.explicit,value]; rfl)
    obtain ⟨back,kept,trailing⟩ : ∃ back, keptValue e = '='::(without ' ' gap.text ++ (decimal v ++ back)) ∧
        ∀ c ∈ back, c ∈ whites := by
      rw [keptValue,value]
      refine ⟨_,rfl,?_⟩
      split
      · exact fun c mem => (withoutWhite behind c mem).1
      · exact fun _ none => nomatch none
    have absent : '=' ∉ without ' ' gap.text ++ (decimal v ++ back) :=
      List.not_mem_append (withoutSubset (whiteOther (by decide) gap)) (List.not_mem_append
        (fun digit => (decimalOthers _ digit).2 (by decide)) (fun blank => whiteOthers _ (trailing _ blank) (by decide)))
    have signed : holds ['='] (key e ++ keptValue e) = true := by
      rw [holds,decide_eq_true_eq,List.singleton_infix_iff,kept]
      exact List.mem_append_right _ List.mem_cons_self
    have read := intDecimal foreign bound (fun c mem => whiteBlank c (withoutWhite gap c mem).1)
      (fun c mem => whiteBlank c (trailing c mem))
    rw [signed,if_pos rfl,kept,secondPart (keyNoSign e) absent,firstPart (keyNoSign e),read,recording,Enumerator.explicit,
      value]
    rfl

end

theorem sublistSkip {c : Char} {part front back : Text} (absent : c ∉ front)
    (within : List.Sublist (c::part) (front ++ back)) : List.Sublist (c::part) back := by
  obtain ⟨left,right,whole,first,second⟩ := List.sublist_append_iff.mp within
  cases left with
  | nil =>
    rw [List.nil_append] at whole
    rwa [whole]
  | cons d left =>
    cases whole
    exact absurd (first.subset List.mem_cons_self) absent

theorem notEnum {indent rest : Text} (name : Text) (before : 'm' ∉ indent) (inside : ' ' ∉ name) (behind : 'A' ∉ rest) :
    holds enumText (indent ++ (name ++ rest)) = false := by
  rw [holds,decide_eq_false_iff_not]
  intro found
  -- a letter, a blank and a letter do not come in this order
  have order : List.Sublist ['m',' ','A'] enumText := by decide
  have letters := sublistSkip before (order.trans found.sublist)
  have last := sublistSkip inside (List.sublist_of_cons_sublist letters)
  exact behind (last.subset (List.mem_cons_of_mem _ List.mem_cons_self))

theorem notEnd {text : Text} (absent : '}' ∉ text) : holds endText text = false := by
  rw [holds,decide_eq_false_iff_not]
  exact fun found => absent (found.subset (show '}' ∈ endText by decide))

theorem behindOther {c : Char} (other : c ∈ ['A','}']) (e : Enumerator) :
    c ∉ e.gap.text ++ (valueText e.value ++ (commaText e.comma ++ ['\n'])) := by
  have known : ∀ c ∈ ['A','}'], c ∈ [',','=','m','A','}'] ∧ c ∈ [',','A','}'] ∧ c ∉ [',','\n'] :=
    eachChar (by decide)
  obtain ⟨blank,sign,ends⟩ := known c other
  have comma : c ∉ commaText e.comma := by
    cases e.comma with
    | none => exact List.not_mem_nil
    | some rest =>
      exact List.not_mem_cons_of_ne_of_not_mem (fun same => ends (same ▸ List.mem_cons_self)) (whiteOther blank rest)
  have newline : c ∉ ['\n'] := fun mem => ends (List.mem_cons_of_mem ',' mem)
  exact List.not_mem_append (whiteOther blank e.gap)
    (List.not_mem_append (valueOther sign e.value) (List.not_mem_append comma newline))

theorem enumeratorPlain (e : Enumerator) : holds enumText e.text = false ∧ holds endText e.text = false := by
  constructor
  · exact notEnum e.name.text (whiteOther (by decide) e.indent) (nameOther (by decide) e.name) (behindOther (by decide) e)
  · exact notEnd (List.not_mem_append (whiteOther (by decide) e.indent)
      (List.not_mem_append (nameOther (by decide) e.name) (behindOther (by decide) e)))

theorem blankPlain (w : White) : holds enumText (w.text ++ ['\n']) = false ∧ holds endText (w.text ++ ['\n']) = false := by
  constructor
  · exact notEnum [] (whiteOther (by decide) w) List.not_mem_nil (by decide)
  · exact notEnd (List.not_mem_append (whiteOther (by decide) w) (by decide))

def Named (symbol : Text) : Prop := symbol ≠ [] ∧ ∀ c ∈ symbol, c ∈ nameChars

theorem nameNamed (name : Identifier) : Named name.text := by
  refine ⟨fun empty => ?_,name.chars⟩
  have starts := name.starts
  rw [empty] at starts
  cases starts

theorem tightKey {e : Enumerator} (tight : Tight e) : key e = e.name.text := by
  have nothing : keptGap e = [] := by
    unfold keptGap
    split
    · exact List.filter_eq_nil_iff.mpr fun c mem => by simpa using tight ‹_› c mem
    · rfl
  rw [key,nothing,List.append_nil]

theorem namedTight {e : Enumerator} (named : Named (key e)) : Tight e := by
  intro followed c mem
  by_contra other
  have kept : c ∈ keptGap e := by
    rw [keptGap,if_pos followed]
    exact List.mem_filter.mpr ⟨mem,by simpa using other⟩
  have space := (nameOthers c (named.2 c (List.mem_append_right _ kept))).1
  rw [whiteSpace c (e.gap.white c mem)] at space
  cases space

theorem blankClean (w : White) : clean (w.text ++ ['\n']) = [] := by
  have none_ : strip (w.text ++ ['\n']) = [] := by
    have all : ∀ c ∈ w.text ++ ['\n'], isSpace c = true := by
      intro c mem
      rcases List.mem_append.mp mem with white | newline
      · exact whiteSpace c (w.white c white)
      · rw [List.mem_singleton.mp newline]
        decide
    rw [strip,trim,List.dropWhile_eq_nil_iff.mpr all]
    rfl
  rw [clean,none_]
  rfl

theorem commentClean (c : Comment) : ∃ rest, clean c.text = '/'::rest := by
  have front : c.text.dropWhile isSpace = '/' :: '/' ::(c.words ++ ['\n']) := by
    rw [Comment.text,List.dropWhile_append_of_pos fun d mem => whiteSpace d (c.indent.white d mem)]
    exact List.dropWhile_cons_of_neg (by decide)
  obtain ⟨rest,kept⟩ : ∃ rest, strip c.text = '/'::rest := by
    rw [strip,trim,front]
    have part := List.rdropWhile_prefix isSpace (l := '/' :: '/' ::(c.words ++ ['\n']))
    cases shape : ('/' :: '/' ::(c.words ++ ['\n'])).rdropWhile isSpace with
    | nil =>
      have all := List.rdropWhile_eq_nil_iff.mp shape '/' List.mem_cons_self
      cases all
    | cons d rest =>
      rw [shape] at part
      cases (List.cons_prefix_cons.mp part).1
      exact ⟨rest,rfl⟩
  exact ⟨first ',' (without ' ' rest),by rw [clean,kept]; rfl⟩

section
variable {foreign : Text → Option Int}

theorem opened {s : Scan} {line : Text} (names : holds enumText line = true) :
    scanLine foreign s line = some { s with recording := true } := if_pos names

theorem closed {s : Scan} {line : Text} (other : holds enumText line = false) (ends : holds endText line = true) :
    scanLine foreign s line = some { s with recording := false } := by
  rw [scanLine,other,if_neg Bool.false_ne_true,if_pos ends]
  rfl

theorem passed {s : Scan} {line : Text} (other : holds enumText line = false) (off : s.recording = false) :
    scanLine foreign s line = some s := by
  obtain ⟨symbols,recording,idx⟩ := s
  cases off
  rw [scanLine,other,if_neg Bool.false_ne_true]
  split <;> rfl

theorem recorded {s t : Scan} {line : Text} (plain : holds enumText line = false ∧ holds endText line = false)
    (recording : s.recording = true) (scanned : scanLine foreign s line = some t) :
    ∃ k v, t = ⟨setItem s.symbols k v,true,v + 1⟩ ∧ (k = clean line ∨ k = first '=' (clean line)) := by
  rw [scanLine,plain.1,if_neg Bool.false_ne_true,plain.2,if_neg Bool.false_ne_true] at scanned
  dsimp only at scanned
  rw [if_pos recording,recording] at scanned
  by_cases signed : holds ['='] (clean line) = true
  · rw [if_pos signed] at scanned
    cases read : int foreign (second '=' (clean line)) with
    | none =>
      rw [read] at scanned
      cases scanned
    | some v =>
      rw [read] at scanned
      cases scanned
      exact ⟨_,v,rfl,.inr rfl⟩
  · rw [if_neg signed] at scanned
    cases scanned
    exact ⟨_,_,rfl,.inl rfl⟩

theorem noName {rest : Text} : ¬ Named ('/'::rest) := fun named => absurd (named.2 '/' List.mem_cons_self) (by decide)

theorem blankNoName {w : White} {k : Text}
    (made : k = clean (w.text ++ ['\n']) ∨ k = first '=' (clean (w.text ++ ['\n']))) : ¬ Named k := by
  intro named
  rw [blankClean] at made
  rcases made with rfl | rfl
  · exact named.1 rfl
  · exact named.1 rfl

theorem commentNoName {c : Comment} {k : Text} (made : k = clean c.text ∨ k = first '=' (clean c.text)) : ¬ Named k := by
  obtain ⟨rest,kept⟩ := commentClean c
  rw [kept] at made
  rcases made with rfl | rfl
  · exact noName
  · exact noName

inductive Effect (s : Scan) : Line → Scan → Prop where
  | opens {c : Comment} (names : holds enumText c.text = true) : Effect s (.comment c) { s with recording := true }
  | closes {c : Comment} (other : holds enumText c.text = false) (ends : holds endText c.text = true) :
      Effect s (.comment c) { s with recording := false }
  | passes {line : Line} (plain : holds enumText line.text = false ∧ holds endText line.text = false)
      (off : s.recording = false) : Effect s line s
  | records {e : Enumerator} (recording : s.recording = true) :
      Effect s (.enumerator e) ⟨setItem s.symbols (key e) (e.explicit.getD s.idx),true,e.explicit.getD s.idx + 1⟩
  | strays {line : Line} {k : Text} {v : Int} (none_ : line.enumerator? = none) (recording : s.recording = true)
      (other : ¬ Named k) : Effect s line ⟨setItem s.symbols k v,true,v + 1⟩

structure Grows (s t : Scan) (own : List Enumerator) : Prop where
  stays : ∀ k ∈ keys s.symbols, k ∈ keys t.symbols
  new : ∀ k ∈ keys t.symbols, k ∈ keys s.symbols ∨ ¬ Named k ∨ ∃ e ∈ own, k = e.name.text

theorem setMem {d : Dict Text Int} {j k : Text} {v : Int} : j ∈ keys (setItem d k v) ↔ j ∈ keys d ∨ j = k := by
  rw [keysSet]
  exact onceMem

def Sized (es : List Enumerator) : Prop := ∀ e ∈ es, ∀ v ∈ e.explicit, v.natAbs < 10^10

theorem setGrows {s t : Scan} {k : Text} {v : Int} (set : t.symbols = setItem s.symbols k v) {own : List Enumerator}
    (made : ¬ Named k ∨ ∃ e ∈ own, k = e.name.text) : Grows s t own := by
  refine ⟨fun j mem => ?_,fun j mem => ?_⟩
  · rw [set]
    exact setMem.mpr (.inl mem)
  · rw [set] at mem
    rcases setMem.mp mem with old | rfl
    · exact .inl old
    · exact .inr made

theorem lineEffect {s t : Scan} {line : Line} (sized : Sized line.enumerator?.toList)
    (scanned : scanLine foreign s line.text = some t) : Effect s line t := by
  have other (plain : holds enumText line.text = false ∧ holds endText line.text = false)
      (none_ : line.enumerator? = none)
      (strange : ∀ {k}, k = clean line.text ∨ k = first '=' (clean line.text) → ¬ Named k) : Effect s line t := by
    cases recording : s.recording with
    | false =>
      cases Option.some.inj ((passed plain.1 recording).symm.trans scanned)
      exact .passes plain recording
    | true =>
      obtain ⟨k,v,rfl,made⟩ := recorded plain recording scanned
      exact .strays none_ recording (strange made)
  cases line with
  | enumerator e =>
    have plain := enumeratorPlain e
    cases recording : s.recording with
    | false =>
      cases Option.some.inj ((passed plain.1 recording).symm.trans scanned)
      exact .passes plain recording
    | true =>
      have done := enumeratorRecorded foreign (sized e List.mem_cons_self) plain recording
      cases Option.some.inj (done.symm.trans scanned)
      exact .records recording
  | blank w => exact other (blankPlain w) rfl blankNoName
  | comment c =>
    cases names : holds enumText c.text with
    | true =>
      cases Option.some.inj ((opened names).symm.trans scanned)
      exact .opens names
    | false =>
      cases ends : holds endText c.text with
      | true =>
        cases Option.some.inj ((closed names ends).symm.trans scanned)
        exact .closes names ends
      | false => exact other ⟨names,ends⟩ rfl commentNoName

theorem effectGrows {s t : Scan} {line : Line} (effect : Effect s line t) : Grows s t line.enumerator?.toList := by
  cases effect with
  | opens => exact ⟨fun _ mem => mem,fun _ mem => .inl mem⟩
  | closes => exact ⟨fun _ mem => mem,fun _ mem => .inl mem⟩
  | passes => exact ⟨fun _ mem => mem,fun _ mem => .inl mem⟩
  | @records e =>
    refine setGrows rfl ?_
    by_cases named : Named (key e)
    · exact .inr ⟨e,List.mem_cons_self,tightKey (namedTight named)⟩
    · exact .inl named
  | strays _ _ other => exact setGrows rfl (.inl other)

def scanLines (foreign : Text → Option Int) (s : Scan) (lines : List Line) : Option Scan :=
  lines.foldlM (fun s line => scanLine foreign s line.text) s

theorem scanCons {s t : Scan} {line : Line} {rest : List Line} (ran : scanLines foreign s (line::rest) = some t) :
    ∃ u, scanLine foreign s line.text = some u ∧ scanLines foreign u rest = some t := by
  rw [scanLines,List.foldlM_cons] at ran
  exact Option.bind_eq_some_iff.mp ran

theorem enumeratorsCons (line : Line) (rest : List Line) :
    enumerators (line::rest) = line.enumerator?.toList ++ enumerators rest := by
  rw [enumerators,List.filterMap_cons]
  cases line.enumerator? <;> rfl

theorem linesGrow {s t : Scan} {lines : List Line} (sized : Sized (enumerators lines))
    (ran : scanLines foreign s lines = some t) : Grows s t (enumerators lines) := by
  induction lines generalizing s with
  | nil =>
    cases ran
    exact ⟨fun _ mem => mem,fun _ mem => .inl mem⟩
  | cons line rest ih =>
    obtain ⟨u,first,tail⟩ := scanCons ran
    rw [enumeratorsCons] at sized ⊢
    have one := effectGrows (lineEffect (fun e mem => sized e (List.mem_append_left _ mem)) first)
    have others := ih (fun e mem => sized e (List.mem_append_right _ mem)) tail
    refine ⟨fun k mem => others.stays k (one.stays k mem),fun k mem => ?_⟩
    rcases others.new k mem with old | other | ⟨e,own,same⟩
    · rcases one.new k old with older | other | ⟨e,own,same⟩
      · exact .inl older
      · exact .inr (.inl other)
      · exact .inr (.inr ⟨e,List.mem_append_left _ own,same⟩)
    · exact .inr (.inl other)
    · exact .inr (.inr ⟨e,List.mem_append_right _ own,same⟩)

theorem clearComment {recording : Bool} {c : Comment} {rest : List Line}
    (plain : holds enumText c.text = false ∧ holds endText c.text = false) :
    Clear recording (.comment c::rest) ↔ recording = false ∧ Clear recording rest := by
  rw [Clear,plain.1,plain.2,if_neg Bool.false_ne_true,if_neg Bool.false_ne_true]

theorem clearRun (foreign : Text → Option Int) {s : Scan} {lines : List Line} (clear : Clear s.recording lines) (sized : Sized (enumerators lines))
    (fresh : (keys s.symbols ++ (enumerators lines).map fun e => e.name.text).Nodup) :
    ∃ t, scanLines foreign s lines = some t ∧ t.symbols = s.symbols ++ cValues s.idx (enumerators lines) := by
  induction lines generalizing s with
  | nil => exact ⟨s,rfl,(List.append_nil _).symm⟩
  | cons line rest ih =>
    -- the state in which the rest is scanned
    have next {u : Scan} (first : scanLine foreign s line.text = some u)
        (tail : ∃ t, scanLines foreign u rest = some t ∧ t.symbols = s.symbols ++ cValues s.idx (enumerators (line::rest))) :
        ∃ t, scanLines foreign s (line::rest) = some t ∧
          t.symbols = s.symbols ++ cValues s.idx (enumerators (line::rest)) := by
      obtain ⟨t,ran,same⟩ := tail
      refine ⟨t,?_,same⟩
      rw [scanLines,List.foldlM_cons,first]
      exact ran
    rw [enumeratorsCons] at sized fresh
    have others : Sized (enumerators rest) := fun e mem => sized e (List.mem_append_right _ mem)
    cases line with
    | enumerator e =>
      obtain ⟨recording,tight,clear⟩ := clear
      have done := enumeratorRecorded foreign (sized e List.mem_cons_self) (enumeratorPlain e) recording
      rw [tightKey tight] at done
      have absent : e.name.text ∉ keys s.symbols := fun mem =>
        (List.nodup_append.mp fresh).2.2 _ mem _ List.mem_cons_self rfl
      rw [setFresh absent] at done
      refine next done ?_
      rw [recording] at clear
      obtain ⟨t,ran,same⟩ := ih (s := ⟨s.symbols ++ [(e.name.text,e.explicit.getD s.idx)],true,e.explicit.getD s.idx + 1⟩)
        clear others (by simpa [keys,Line.enumerator?] using fresh)
      exact ⟨t,ran,by rw [same,List.append_assoc]; rfl⟩
    | blank w =>
      obtain ⟨off,clear⟩ := clear
      exact next (passed (blankPlain w).1 off) (ih clear others fresh)
    | comment c =>
      cases names : holds enumText c.text with
      | true =>
        rw [Clear,if_pos names] at clear
        exact next (opened names) (ih (s := { s with recording := true }) clear others fresh)
      | false =>
        cases ends : holds endText c.text with
        | true =>
          rw [Clear,names,if_neg Bool.false_ne_true,if_pos ends] at clear
          exact next (closed names ends) (ih (s := { s with recording := false }) clear others fresh)
        | false =>
          obtain ⟨off,clear⟩ := (clearComment ⟨names,ends⟩).mp clear
          exact next (passed names off) (ih clear others fresh)

def Spoiled (t : Scan) (es : List Enumerator) : Prop :=
  (∃ k ∈ keys t.symbols, ¬ Named k) ∨ ∃ e ∈ es, e.name.text ∉ keys t.symbols

theorem unclearRun {s t : Scan} {lines : List Line} (unclear : ¬ Clear s.recording lines) (sized : Sized (enumerators lines))
    (fresh : (keys s.symbols ++ (enumerators lines).map fun e => e.name.text).Nodup)
    (ran : scanLines foreign s lines = some t) : Spoiled t (enumerators lines) := by
  induction lines generalizing s with
  | nil => exact absurd trivial unclear
  | cons line rest ih =>
    obtain ⟨u,first,tail⟩ := scanCons ran
    rw [enumeratorsCons] at sized fresh ⊢
    have others : Sized (enumerators rest) := fun e mem => sized e (List.mem_append_right _ mem)
    have grows := linesGrow others tail
    have unnamed {k : Text} (mem : k ∈ keys u.symbols) (no : ¬ Named k) :
        Spoiled t (line.enumerator?.toList ++ enumerators rest) := .inl ⟨k,grows.stays k mem,no⟩
    have later (spoiled : Spoiled t (enumerators rest)) : Spoiled t (line.enumerator?.toList ++ enumerators rest) := by
      rcases spoiled with stray | ⟨e,mem,missing⟩
      · exact .inl stray
      · exact .inr ⟨e,List.mem_append_right _ mem,missing⟩
    cases lineEffect (fun e mem => sized e (List.mem_append_left _ mem)) first with
    | opens names =>
      rw [Clear,if_pos names] at unclear
      exact later (ih (s := { s with recording := true }) unclear others fresh tail)
    | closes other ends =>
      rw [Clear,other,if_neg Bool.false_ne_true,if_pos ends] at unclear
      exact later (ih (s := { s with recording := false }) unclear others fresh tail)
    | passes plain off =>
      cases line with
      | enumerator e =>
        refine .inr ⟨e,List.mem_cons_self,fun mem => ?_⟩
        rcases grows.new _ mem with old | no | ⟨f,own,same⟩
        · exact (List.nodup_append.mp fresh).2.2 _ old _ List.mem_cons_self rfl
        · exact no (nameNamed e.name)
        · have once := (List.nodup_cons.mp (List.nodup_append.mp fresh).2.1).1
          exact once (List.mem_map.mpr ⟨f,own,same.symm⟩)
      | blank w => exact later (ih (fun clear => unclear ⟨off,clear⟩) others fresh tail)
      | comment c => exact later (ih (fun clear => unclear ((clearComment plain).mpr ⟨off,clear⟩)) others fresh tail)
    | @records e recording =>
      by_cases tight : Tight e
      · refine later (ih ?_ others ?_ tail)
        · exact fun clear => unclear ⟨recording,tight,recording ▸ clear⟩
        · have absent : e.name.text ∉ keys s.symbols := fun mem =>
            (List.nodup_append.mp fresh).2.2 _ mem _ List.mem_cons_self rfl
          rw [tightKey tight,setFresh absent]
          simpa [keys,Line.enumerator?] using fresh
      · exact unnamed (setMem.mpr (.inr rfl)) fun named => tight (namedTight named)
    | strays _ _ other => exact unnamed (setMem.mpr (.inr rfl)) other

theorem outside (foreign : Text → Option Int) {s : Scan} {lines : List Text} (off : s.recording = false)
    (plain : ∀ line ∈ lines, holds enumText line = false) : lines.foldlM (scanLine foreign) s = some s := by
  induction lines with
  | nil => rfl
  | cons line rest ih =>
    rw [List.foldlM_cons,passed (plain line List.mem_cons_self) off]
    exact ih fun other mem => plain other (List.mem_cons_of_mem _ mem)

theorem fileScanned (foreign : Text → Option Int) (file : ResourceFile) :
    getGroupIndicesAndSymbols foreign file.lines = (scanLines foreign ⟨[],true,0⟩ file.body.lines).map Scan.symbols := by
  have before := outside foreign (s := ⟨[],false,0⟩) rfl fun line mem => file.only line (List.mem_append_left _ mem)
  have opening : scanLine foreign ⟨[],false,0⟩ "enum ARC_DRI_GROUP \x7b\n".toList = some ⟨[],true,0⟩ := opened (by decide)
  have body : (file.body.lines.map Line.text).foldlM (scanLine foreign) ⟨[],true,0⟩ =
      scanLines foreign ⟨[],true,0⟩ file.body.lines := List.foldlM_map ..
  rw [getGroupIndicesAndSymbols,ResourceFile.lines,List.foldlM_append,before]
  change (List.foldlM (scanLine foreign) ⟨[],false,0⟩ _).map _ = _
  rw [List.foldlM_cons,opening]
  change (List.foldlM (scanLine foreign) ⟨[],true,0⟩ _).map _ = _
  rw [List.foldlM_append,body]
  cases scanLines foreign ⟨[],true,0⟩ file.body.lines with
  | none => rfl
  | some t =>
    have closing : scanLine foreign t "\x7d;\n".toList = some { t with recording := false } := closed (by decide) (by decide)
    have after := outside foreign (s := { t with recording := false }) rfl
      fun line mem => file.only line (List.mem_append_right _ mem)
    change ((List.foldlM (scanLine foreign) t ("\x7d;\n".toList::file.after))).map _ = _
    rw [List.foldlM_cons,closing]
    change (List.foldlM (scanLine foreign) _ _).map _ = _
    rw [after]
    rfl

theorem explicitListed {es : List Enumerator} {e : Enumerator} (mem : e ∈ es) {v : Int} (own : v ∈ e.explicit) (next : Int) :
    (e.name.text,v) ∈ cValues next es := by
  induction es generalizing next with
  | nil => cases mem
  | cons f rest ih =>
    rcases List.mem_cons.mp mem with rfl | later
    · have value : e.explicit.getD next = v := by rw [own]; rfl
      rw [cValues,value]
      exact List.mem_cons_self
    · exact List.mem_cons_of_mem _ (ih later _)

theorem bodySized (body : Body) : Sized (enumerators body.lines) := by
  intro e mem v own
  have range := body.ints _ (explicitListed mem own 0)
  dsimp only at range
  omega

theorem cKeys (next : Int) (es : List Enumerator) : keys (cValues next es) = es.map fun e => e.name.text := by
  induction es generalizing next with
  | nil => rfl
  | cons e rest ih => exact congrArg (e.name.text::·) (ih _)

end

/-- The scanner reads the enumeration as C does exactly when each enumerator, with nothing but blanks
behind its name, and no other line of the body is recorded. -/
theorem readsIff (foreign : Text → Option Int) (file : ResourceFile) : Reads foreign file ↔ Clear true file.body.lines := by
  have sized := bodySized file.body
  have names := file.body.names
  constructor
  · intro reads
    by_contra unclear
    obtain ⟨symbols,ran,agree⟩ := reads
    rw [fileScanned] at ran
    obtain ⟨t,scanned,rfl⟩ := Option.map_eq_some_iff.mp ran
    rcases unclearRun (s := ⟨[],true,0⟩) unclear sized names scanned with ⟨k,mem,no⟩ | ⟨e,mem,missing⟩
    · obtain ⟨v,here⟩ := itemMem.mpr mem
      have listed : k ∈ keys (cValues 0 (enumerators file.body.lines)) := List.mem_map.mpr ⟨_,(agree k v).mp here,rfl⟩
      rw [cKeys] at listed
      obtain ⟨e,_,rfl⟩ := List.mem_map.mp listed
      exact no (nameNamed e.name)
    · have listed : e.name.text ∈ keys (cValues 0 (enumerators file.body.lines)) := by
        rw [cKeys]
        exact List.mem_map.mpr ⟨e,mem,rfl⟩
      obtain ⟨p,pair,same⟩ := List.mem_map.mp listed
      exact missing (itemMem.mp ⟨p.2,(agree e.name.text p.2).mpr (same ▸ pair)⟩)
  · intro clear
    obtain ⟨t,scanned,same⟩ := clearRun foreign (s := ⟨[],true,0⟩) clear sized names
    rw [List.nil_append] at same
    refine ⟨t.symbols,by rw [fileScanned,scanned]; rfl,fun k v => ?_⟩
    rw [same]
    exact itemPair (by rw [cKeys]; exact names)

def spaced : ResourceFile where
  before := []
  body :=
    { lines := [
        .enumerator ⟨⟨['\t'],eachChar rfl⟩,⟨['A'],eachChar rfl,rfl⟩,noWhite,none,some noWhite⟩,
        .blank noWhite,
        .enumerator ⟨⟨['\t'],eachChar rfl⟩,⟨['B'],eachChar rfl,rfl⟩,noWhite,none,none⟩]
      names := by decide
      commas := by decide
      ints := by decide }
  after := []
  only := fun _ none => nomatch none

theorem spacedScanned :
    getGroupIndicesAndSymbols (fun _ => none) spaced.lines = some [(['A'],0),([],1),(['B'],2)] := by decide +kernel

theorem blankLineShifts : ¬ ∀ foreign file, Reads foreign file := by
  intro all
  obtain ⟨symbols,ran,agree⟩ := all (fun _ => none) spaced
  cases Option.some.inj (spacedScanned.symm.trans ran)
  have listed := (agree ['B'] 2).mp rfl
  exact absurd listed (by decide)

def Written (items : List DriverTables.Enumerator) (es : List Enumerator) : Prop :=
  es.map (fun e => (String.ofList e.name.text,e.explicit)) = items.map fun item => (item.1,item.2.map Int.ofNat)

def named (symbols : Dict Text Int) : Dict String Int := symbols.map fun symbol => (String.ofList symbol.1,symbol.2)
def counted (symbols : Dict String Nat) : Dict String Int := symbols.map fun symbol => (symbol.1,(symbol.2 : Int))

theorem writtenRead {items : List DriverTables.Enumerator} {es : List Enumerator} (written : Written items es)
    {symbols : Dict String Nat} (fresh : (keys symbols ++ items.map Prod.fst).Nodup) (idx : Nat) :
    counted (DriverTables.readSymbols items idx symbols) = counted symbols ++ named (cValues idx es) := by
  induction items generalizing es symbols idx with
  | nil =>
    cases List.map_eq_nil_iff.mp written
    exact (List.append_nil _).symm
  | cons item rest ih =>
    obtain ⟨clean,explicit⟩ := item
    cases es with
    | nil => cases written
    | cons e es =>
      obtain ⟨head,tail⟩ := List.cons.inj written
      obtain ⟨name,value⟩ := Prod.mk.inj head
      have absent : clean ∉ keys symbols := fun mem =>
        (List.nodup_append.mp fresh).2.2 clean mem clean List.mem_cons_self rfl
      have same : e.explicit.getD (idx : Int) = ((explicit.getD idx : Nat) : Int) := by
        rw [value]
        cases explicit <;> rfl
      have grown : (keys (symbols ++ [(clean,explicit.getD idx)]) ++ rest.map Prod.fst).Nodup := by
        simpa [keys] using fresh
      rw [DriverTables.readSymbols,setFresh absent,ih tail grown,cValues,same]
      simp [counted,named,name]

theorem sameSymbols (foreign : Text → Option Int) {file : ResourceFile} (clear : Clear true file.body.lines)
    {items : List DriverTables.Enumerator} (written : Written items (enumerators file.body.lines)) :
    (getGroupIndicesAndSymbols foreign file.lines).map named =
      some (counted (DriverTables.getGroupIndicesAndSymbols items)) := by
  have names := file.body.names
  have fresh : (keys ([] : Dict String Nat) ++ items.map Prod.fst).Nodup := by
    have same := congrArg (List.map Prod.fst) written
    rw [List.map_map,List.map_map] at same
    have strings : ((enumerators file.body.lines).map fun e => String.ofList e.name.text).Nodup := by
      have inj := names.map (f := String.ofList) fun _ _ => String.ofList_injective
      rwa [List.map_map] at inj
    exact same ▸ strings
  obtain ⟨t,scanned,symbols⟩ := clearRun foreign (s := ⟨[],true,0⟩) clear (bodySized file.body) names
  rw [fileScanned,scanned,DriverTables.getGroupIndicesAndSymbols,writtenRead written fresh 0]
  exact congrArg (some ∘ named) symbols

end Kdrivers.GroupEnum
