import Mathlib.Data.List.Basic
import EffectAudit.Json.Reader
import EffectAudit.Proofs.Json.Plain
/-! A plain value is read back from its text, without blanks as with one part per line. Both are layouts:
they differ in what stands around the parts of arrays and objects, and a reader skips that. -/
namespace EffectAudit.Json
open Reader

theorem hexByteRead : ∀ n < 32, hexQuad? '0' '0' (Nat.digitChar (n / 16)) (Nat.digitChar (n % 16)) =
    some n := by
  decide

theorem assembleUnit {n : Nat} (low : n < 0xD800) (more : List Reader.Piece) :
    assemble (.unit n :: more) = (assemble more).map (Char.ofNat n :: ·) := by
  have high : isHighSurrogate n = false := by simp [isHighSurrogate]; omega
  have half : isLowSurrogate n = false := by simp [isLowSurrogate]; omega
  cases more with
  | nil => simp [assemble, high, half]
  | cons piece rest => cases piece <;> simp [assemble, high, half]

theorem piecesEscape {e c : Char} (read : simpleEscape? e = some c) (other : e ≠ 'u')
    (rest : List Char) :
    pieces ('\\' :: e :: rest) = (pieces rest).map fun p => (.char c :: p.1, p.2) := by
  rw [pieces]
  · rw [read]
    cases pieces rest <;> rfl
  · simp [other]

theorem piecesNumber {n : Nat} (small : n < 32) (rest : List Char) :
    pieces (['\\', 'u', '0', '0'] ++ hexByte n ++ rest) =
      (pieces rest).map fun p => (.unit n :: p.1, p.2) := by
  simp only [hexByte, List.cons_append, List.nil_append]
  rw [pieces, hexByteRead n small]
  cases pieces rest <;> rfl

theorem piecesPlain {c : Char} (visible : ¬c.toNat < 32) (quote : c ≠ '"') (slash : c ≠ '\\')
    (rest : List Char) : pieces (c :: rest) = (pieces rest).map fun p => (.char c :: p.1, p.2) := by
  rw [pieces]
  · rw [if_neg (by simp [visible, slash])]
    cases pieces rest <;> rfl
  · exact quote
  · simp [slash]
  · simp [slash]

theorem escapeCases (c : Char) :
    (∃ e, escapeChar c = ['\\', e] ∧ simpleEscape? e = some c ∧ e ≠ 'u') ∨
      (c.toNat < 32 ∧ escapeChar c = ['\\', 'u', '0', '0'] ++ hexByte c.toNat) ∨
      (¬c.toNat < 32 ∧ c ≠ '"' ∧ c ≠ '\\' ∧ escapeChar c = [c]) := by
  have numbered {n : Nat} (same : c.toNat = n) : c = Char.ofNat n := by rw [← same, Char.ofNat_toNat]
  unfold escapeChar
  split_ifs with quote slash newline feed tab back page small
  · exact .inl ⟨_, rfl, by rw [quote]; rfl, by decide⟩
  · exact .inl ⟨_, rfl, by rw [slash]; rfl, by decide⟩
  · exact .inl ⟨_, rfl, by rw [newline]; rfl, by decide⟩
  · exact .inl ⟨_, rfl, by rw [feed]; rfl, by decide⟩
  · exact .inl ⟨_, rfl, by rw [tab]; rfl, by decide⟩
  · exact .inl ⟨_, rfl, by rw [numbered back]; rfl, by decide⟩
  · exact .inl ⟨_, rfl, by rw [numbered page]; rfl, by decide⟩
  · exact .inr (.inl ⟨small, rfl⟩)
  · exact .inr (.inr ⟨small, quote, slash, rfl⟩)

theorem escapedPiece (c : Char) (rest : List Char) :
    ∃ piece, pieces (escapeChar c ++ rest) = (pieces rest).map (fun p => (piece :: p.1, p.2)) ∧
      ∀ more, assemble (piece :: more) = (assemble more).map (c :: ·) := by
  have char (more : List Reader.Piece) : assemble (.char c :: more) = (assemble more).map (c :: ·) := by
    rw [assemble]
  rcases escapeCases c with ⟨e, written, read, other⟩ | ⟨small, written⟩ |
    ⟨visible, quote, slash, written⟩
  · rw [written]
    exact ⟨_, piecesEscape read other rest, char⟩
  · rw [written]
    refine ⟨_, piecesNumber small rest, ?_⟩
    intro more
    rw [assembleUnit (by omega), Char.ofNat_toNat]
  · rw [written]
    exact ⟨_, piecesPlain visible quote slash rest, char⟩

theorem stringRead (text : String) (rest : List Char) :
    stringBody (text.toList.flatMap escapeChar ++ '"' :: rest) = some (some text, rest) := by
  have spelled (cs : List Char) : ∃ parts, pieces (cs.flatMap escapeChar ++ '"' :: rest) =
      some (parts, rest) ∧ assemble parts = some cs := by
    induction cs with
    | nil => exact ⟨[], rfl, rfl⟩
    | cons c more ih =>
      obtain ⟨parts, read, joined⟩ := ih
      obtain ⟨piece, first, spells⟩ := escapedPiece c (more.flatMap escapeChar ++ '"' :: rest)
      refine ⟨piece :: parts, ?_, ?_⟩
      · rw [List.flatMap_cons, List.append_assoc, first, read]
        rfl
      · rw [spells, joined]
        rfl
  obtain ⟨parts, read, joined⟩ := spelled text.toList
  simp [stringBody, read, joined]

def Ends (rest : List Char) : Prop :=
  ∀ c ∈ rest.head?, isBlank c = true ∨ c = ',' ∨ c = ']' ∨ c = '}'

theorem endsCases {c : Char} {rest : List Char} (ends : Ends (c :: rest)) :
    c = ' ' ∨ c = '\n' ∨ c = '\r' ∨ c = '\t' ∨ c = ',' ∨ c = ']' ∨ c = '}' := by
  simpa [isBlank, or_assoc] using ends c rfl

theorem appendDigits {digits : List Char} {value : Nat}
    (small : Nat.ofDigitChars 10 digits value < UInt64.size) :
    Decimal.append value (digitValues digits) = (Nat.ofDigitChars 10 digits value, []) := by
  induction digits generalizing value with
  | nil => simp [digitValues, Decimal.append]
  | cons c rest ih =>
    rw [Nat.ofDigitChars_cons] at small ⊢
    have grows : 10 * value + (c.toNat - '0'.toNat) ≤
        Nat.ofDigitChars 10 rest (10 * value + (c.toNat - '0'.toNat)) := by
      rw [Nat.ofDigitChars_eq_ofDigitChars_zero]
      exact Nat.le_trans (Nat.le_mul_of_pos_left _ (Nat.pow_pos (by decide))) (Nat.le_add_right ..)
    have fits : value * 10 + (c.toNat - '0'.toNat) < UInt64.size := by omega
    have shape : digitValues (c :: rest) = (c.toNat - '0'.toNat) :: digitValues rest := rfl
    rw [shape, Decimal.append, if_pos fits, Nat.mul_comm value 10]
    exact ih small

theorem leadingDigit {n : Nat} (positive : 0 < n) :
    ∃ c digits, Nat.toDigits 10 n = c :: digits ∧ c ≠ '0' := by
  induction n using Nat.strongRecOn with
  | _ n ih =>
    by_cases single : n < 10
    · have nonzero : ∀ d < 10, 0 < d → Nat.digitChar d ≠ '0' := by decide
      exact ⟨_, [], Nat.toDigits_of_lt_base single, nonzero n single positive⟩
    · obtain ⟨c, digits, shape, first⟩ := ih (n / 10) (by omega) (by omega)
      refine ⟨c, digits ++ [Nat.digitChar (n % 10)], ?_, first⟩
      rw [Nat.toDigits_of_base_le (by decide) (by omega), shape, List.cons_append]

theorem endsDigits {rest : List Char} (ends : Ends rest) : rest.takeWhile Char.isDigit = [] ∧
    rest.dropWhile Char.isDigit = rest := by
  cases rest with
  | nil => exact ⟨rfl, rfl⟩
  | cons c more => rcases endsCases ends with rfl | rfl | rfl | rfl | rfl | rfl | rfl <;> exact ⟨rfl, rfl⟩

theorem wholeRead (n : Nat) {rest : List Char} (ends : Ends rest) :
    wholePart (Nat.toDigits 10 n ++ rest) = some (Nat.toDigits 10 n, rest) := by
  rcases Nat.eq_zero_or_pos n with rfl | positive
  · rfl
  · have digit : ∀ c ∈ Nat.toDigits 10 n, c.isDigit = true := fun c member =>
      Nat.isDigit_of_mem_toDigits (by decide) (by decide) member
    have taken : (Nat.toDigits 10 n ++ rest).takeWhile Char.isDigit = Nat.toDigits 10 n := by
      rw [List.takeWhile_append_of_pos digit, (endsDigits ends).1, List.append_nil]
    have left : (Nat.toDigits 10 n ++ rest).dropWhile Char.isDigit = rest := by
      rw [List.dropWhile_append_of_pos digit, (endsDigits ends).2]
    obtain ⟨c, digits, shape, first⟩ := leadingDigit positive
    have started : wholePart (Nat.toDigits 10 n ++ rest) = digits1 (Nat.toDigits 10 n ++ rest) := by
      rw [shape, List.cons_append, wholePart]
      simp [first]
    rw [started, digits1, taken, left, if_neg (by simp [Nat.toDigits_ne_nil])]

theorem numberRead {n : Nat} (small : n < UInt64.size) {rest : List Char} (ends : Ends rest) :
    number false (Nat.toDigits 10 n ++ rest) = some (.nat n, rest) := by
  have fraction : fractionPart rest = some (none, rest) := by
    cases rest with
    | nil => rfl
    | cons c more => rcases endsCases ends with rfl | rfl | rfl | rfl | rfl | rfl | rfl <;> rfl
  have exponent : exponentPart rest = some (none, rest) := by
    cases rest with
    | nil => rfl
    | cons c more => rcases endsCases ends with rfl | rfl | rfl | rfl | rfl | rfl | rfl <;> rfl
  have written : Decimal.ofDigits false (digitValues (Nat.toDigits 10 n)) (digitValues []) 0 =
      ⟨false, n, 0⟩ := by
    have all : Decimal.append 0 (digitValues (Nat.toDigits 10 n)) =
        (Nat.ofDigitChars 10 (Nat.toDigits 10 n) 0, []) :=
      appendDigits (by rw [Nat.ofDigitChars_ten_toDigits]; exact small)
    rw [Nat.ofDigitChars_ten_toDigits] at all
    have none : digitValues [] = [] := rfl
    simp [Decimal.ofDigits, all, none, Decimal.append]
  simp [number, wholeRead n ends, fraction, exponent, written]

/- What stands before a part of an array or object, by the level of the part, and before the closing mark,
by the level of the mark; and what stands after a colon. -/
structure Layout where
  gap : Nat → List Char
  afterColon : List Char
  gapBlank : ∀ depth, ∀ c ∈ gap depth, isBlank c = true
  colonBlank : ∀ c ∈ afterColon, isBlank c = true

def listText (before after : List Char) (closing : Char) : List (List Char) → List Char
  | [] => [closing]
  | [part] => before ++ (part ++ (after ++ [closing]))
  | part :: next :: rest => before ++ (part ++ ',' :: listText before after closing (next :: rest))

theorem intercalateText (before after : List Char) (closing : Char) (part : List Char)
    (rest : List (List Char)) :
    before ++ (',' :: before).intercalate (part :: rest) ++ after ++ [closing] =
      listText before after closing (part :: rest) := by
  induction rest generalizing part with
  | nil => simp [listText, List.intercalate]
  | cons next more ih =>
    rw [listText, ← ih]
    simp [List.intercalate]

namespace Layout

def tight : Layout := ⟨fun _ => [], [], by simp, by simp⟩

def spread : Layout where
  gap depth := '\n' :: List.replicate (2 * depth) ' '
  afterColon := [' ']
  gapBlank := by
    intro depth
    simp [isBlank]
  colonBlank := by simp [isBlank]

mutual

def text (l : Layout) (depth : Nat) : Json → List Char
  | .null => "null".toList
  | .bool value => if value then "true".toList else "false".toList
  | .nat value => (toString value).toList
  | .decimal value => (decimalText value).toList
  | .string value => (quote value).toList
  | .array items => '[' :: listText (l.gap (depth + 1)) (l.gap depth) ']' (l.itemTexts (depth + 1) items)
  | .object fields =>
    '{' :: listText (l.gap (depth + 1)) (l.gap depth) '}' (l.fieldTexts (depth + 1) fields)
  | .illFormed => "null".toList

def itemTexts (l : Layout) (depth : Nat) : List Json → List (List Char)
  | [] => []
  | item :: rest => l.text depth item :: l.itemTexts depth rest

def fieldTexts (l : Layout) (depth : Nat) : List (String × Json) → List (List Char)
  | [] => []
  | (key, value) :: rest =>
    ((quote key).toList ++ ':' :: (l.afterColon ++ l.text depth value)) :: l.fieldTexts depth rest

end

end Layout

theorem commaText (closing : Char) (parts : List (List Char)) :
    [','].intercalate parts ++ [closing] = listText [] [] closing parts := by
  cases parts with
  | nil => rfl
  | cons part rest => simpa using intercalateText [] [] closing part rest

mutual

theorem compactLaid (depth : Nat) : (json : Json) → json.compact.toList = Layout.tight.text depth json
  | null => rfl
  | bool value => by cases value <;> rfl
  | nat _ => rfl
  | decimal _ => rfl
  | string _ => rfl
  | illFormed => rfl
  | array items => by
    have parts := compactListLaid (depth + 1) items
    simp only [compact, Layout.text, ← parts, String.toList_append, String.toList_intercalate]
    exact congrArg ('[' :: ·) (commaText ']' _)
  | object fields => by
    have parts := compactFieldsLaid (depth + 1) fields
    simp only [compact, Layout.text, ← parts, String.toList_append, String.toList_intercalate]
    exact congrArg ('{' :: ·) (commaText '}' _)

theorem compactListLaid (depth : Nat) : (items : List Json) →
    (compactList items).map String.toList = Layout.tight.itemTexts depth items
  | [] => rfl
  | item :: rest => by
    rw [compactList, List.map_cons, Layout.itemTexts, compactLaid depth item, compactListLaid depth rest]

theorem compactFieldsLaid (depth : Nat) : (fields : List (String × Json)) →
    (compactFields fields).map String.toList = Layout.tight.fieldTexts depth fields
  | [] => rfl
  | (key, value) :: rest => by
    rw [compactFields, List.map_cons, Layout.fieldTexts, ← compactLaid depth value,
      compactFieldsLaid depth rest]
    simp [Layout.tight]

end

theorem linesText {opening closing : String} {o c : Char} (opens : opening.toList = [o])
    (closes : closing.toList = [c]) (depth : Nat) (parts : List String) :
    (lines opening closing depth parts).toList =
      o :: listText (Layout.spread.gap (depth + 1)) (Layout.spread.gap depth) c
        (parts.map String.toList) := by
  cases parts with
  | nil => simp [lines, listText, opens, closes]
  | cons part rest =>
    rw [List.map_cons, ← intercalateText]
    simp [lines, indentation, Layout.spread, opens, closes]

mutual

theorem prettyLaid (depth : Nat) : (json : Json) →
    (json.prettyAt depth).toList = Layout.spread.text depth json
  | null => rfl
  | bool value => by cases value <;> rfl
  | nat _ => rfl
  | decimal _ => rfl
  | string _ => rfl
  | illFormed => rfl
  | array items => by
    rw [prettyAt, Layout.text, ← prettyListLaid (depth + 1) items,
      linesText (o := '[') (c := ']') rfl rfl]
  | object fields => by
    rw [prettyAt, Layout.text, ← prettyFieldsLaid (depth + 1) fields,
      linesText (o := '{') (c := '}') rfl rfl]

theorem prettyListLaid (depth : Nat) : (items : List Json) →
    (prettyList depth items).map String.toList = Layout.spread.itemTexts depth items
  | [] => rfl
  | item :: rest => by
    rw [prettyList, List.map_cons, Layout.itemTexts, prettyLaid depth item, prettyListLaid depth rest]

theorem prettyFieldsLaid (depth : Nat) : (fields : List (String × Json)) →
    (prettyFields depth fields).map String.toList = Layout.spread.fieldTexts depth fields
  | [] => rfl
  | (key, value) :: rest => by
    rw [prettyFields, List.map_cons, Layout.fieldTexts, ← prettyLaid depth value,
      prettyFieldsLaid depth rest]
    simp [Layout.spread]

end

theorem digitVisible {c : Char} (digit : c.isDigit = true) : isBlank c = false := by
  simp only [isBlank, Bool.or_eq_false_iff, decide_eq_false_iff_not]
  refine ⟨⟨⟨?_, ?_⟩, ?_⟩, ?_⟩ <;> (rintro rfl; simp at digit)

theorem skipNone {c : Char} (visible : isBlank c = false) (rest : List Char) :
    skipBlanks (c :: rest) = c :: rest := by
  rw [skipBlanks, List.dropWhile_cons_of_neg (by simp [visible])]

section Gap

variable {gap : List Char} (blank : ∀ c ∈ gap, isBlank c = true)
include blank

theorem skipGap (rest : List Char) : skipBlanks (gap ++ rest) = skipBlanks rest :=
  List.dropWhile_append_of_pos blank

theorem valueGap (fuel : Nat) (rest : List Char) : value fuel (gap ++ rest) = value fuel rest := by
  cases fuel with
  | zero => rfl
  | succ fuel => rw [value, value, skipGap blank]

theorem endsGap {c : Char} (mark : c = ',' ∨ c = ']' ∨ c = '}') (rest : List Char) :
    Ends (gap ++ c :: rest) := by
  cases gap with
  | nil => simpa [Ends] using Or.inr mark
  | cons first more => simpa [Ends] using Or.inl (blank first (List.mem_cons_self ..))

end Gap

namespace Layout

theorem natText (l : Layout) (depth n : Nat) : l.text depth (.nat n) = Nat.toDigits 10 n := by
  simp [text]

theorem quoteText (value : String) :
    (quote value).toList = '"' :: (value.toList.flatMap escapeChar ++ ['"']) := by
  simp [quote]

theorem textStarts (l : Layout) (depth : Nat) {json : Json} (plain : json.Plain) :
    ∃ c rest, l.text depth json = c :: rest ∧ isBlank c = false ∧ c ≠ ']' := by
  cases plain with
  | null => exact ⟨'n', _, rfl, rfl, by decide⟩
  | bool value => cases value <;> exact ⟨_, _, rfl, rfl, by decide⟩
  | string value => exact ⟨'"', _, by rw [text, quoteText], rfl, by decide⟩
  | array _ => exact ⟨'[', _, by rw [text], rfl, by decide⟩
  | object _ => exact ⟨'{', _, by rw [text], rfl, by decide⟩
  | @nat n _ =>
    cases shape : Nat.toDigits 10 n with
    | nil => exact absurd shape Nat.toDigits_ne_nil
    | cons c digits =>
      have digit : c.isDigit = true := Nat.isDigit_of_mem_toDigits (by decide) (by decide)
        (shape ▸ List.mem_cons_self ..)
      refine ⟨c, digits, (natText l depth n).trans shape, digitVisible digit, ?_⟩
      rintro rfl
      simp at digit

def Reads (l : Layout) (depth : Nat) (json : Json) : Prop :=
  ∀ (fuel : Nat) (rest : List Char), 2 * (l.text depth json).length ≤ fuel → Ends rest →
    value fuel (l.text depth json ++ rest) = some (json, rest)

variable {l : Layout} {depth : Nat}

theorem readsStep {json : Json} (plain : json.Plain)
    (step : ∀ (fuel : Nat) (rest : List Char), 2 * (l.text depth json).length ≤ fuel + 1 → Ends rest →
      value (fuel + 1) (l.text depth json ++ rest) = some (json, rest)) : l.Reads depth json := by
  intro fuel rest enough ends
  obtain ⟨c, more, shape, _⟩ := textStarts l depth plain
  cases fuel with
  | zero =>
    rw [shape, List.length_cons] at enough
    omega
  | succ fuel => exact step fuel rest enough ends

theorem itemsReadBack {items : List Json} (given : items ≠ [])
    (each : ∀ item ∈ items, l.Reads (depth + 1) item) (rest : List Char) {fuel : Nat}
    (enough : 2 * (listText (l.gap (depth + 1)) (l.gap depth) ']'
      (l.itemTexts (depth + 1) items)).length ≤ fuel) :
    Reader.items fuel (listText (l.gap (depth + 1)) (l.gap depth) ']' (l.itemTexts (depth + 1) items) ++
      rest) = some (items, rest) := by
  induction items generalizing fuel with
  | nil => contradiction
  | cons item more ih =>
    rw [List.forall_mem_cons] at each
    cases fuel with
    | zero =>
      cases more <;> simp [listText, itemTexts] at enough
    | succ fuel =>
      cases more with
      | nil =>
        simp only [itemTexts, listText, List.length_append, List.length_singleton, List.append_assoc,
          List.singleton_append] at enough ⊢
        have first := each.1 fuel (l.gap depth ++ ']' :: rest) (by omega)
          (endsGap (l.gapBlank depth) (by simp) rest)
        rw [Reader.items, valueGap (l.gapBlank _), first]
        simp only [Option.bind_eq_bind, Option.bind_some, skipGap (l.gapBlank depth),
          skipNone (c := ']') rfl, Option.pure_def]
      | cons next others =>
        have after (steps : Nat) := @ih (by simp) each.2 steps
        simp only [itemTexts] at enough after ⊢
        rw [listText] at enough ⊢
        generalize listText _ _ _ (_ :: _) = tail at enough after ⊢
        simp only [List.length_append, List.length_cons, List.append_assoc, List.cons_append] at enough ⊢
        have first := each.1 fuel (',' :: (tail ++ rest)) (by omega) (by simp [Ends])
        rw [Reader.items, valueGap (l.gapBlank _), first]
        simp only [Option.bind_eq_bind, Option.bind_some, skipNone (c := ',') rfl, Option.pure_def,
          after fuel (by omega)]

theorem membersReadBack {fields : List (String × Json)} (given : fields ≠ [])
    (each : ∀ field ∈ fields, l.Reads (depth + 1) field.2) (rest : List Char) {fuel : Nat}
    (enough : 2 * (listText (l.gap (depth + 1)) (l.gap depth) '}'
      (l.fieldTexts (depth + 1) fields)).length ≤ fuel) :
    members fuel (listText (l.gap (depth + 1)) (l.gap depth) '}' (l.fieldTexts (depth + 1) fields) ++
      rest) = some (some fields, rest) := by
  induction fields generalizing fuel with
  | nil => contradiction
  | cons field more ih =>
    obtain ⟨key, content⟩ := field
    rw [List.forall_mem_cons] at each
    have own : l.Reads (depth + 1) content := each.1
    cases fuel with
    | zero =>
      cases more <;> simp [listText, fieldTexts] at enough
    | succ fuel =>
      cases more with
      | nil =>
        simp only [fieldTexts, quoteText, listText, List.length_append, List.length_cons, List.length_nil,
          List.append_assoc, List.cons_append, List.nil_append] at enough ⊢
        have first := own fuel (l.gap depth ++ '}' :: rest) (by omega)
          (endsGap (l.gapBlank depth) (by simp) rest)
        simp only [members, skipGap (l.gapBlank _), skipNone (c := '"') rfl, stringRead,
          Option.bind_eq_bind, Option.bind_some, skipNone (c := ':') rfl, valueGap l.colonBlank, first,
          skipNone (c := '}') rfl, Option.pure_def, Option.map_some]
      | cons next others =>
        obtain ⟨key', content'⟩ := next
        have after (steps : Nat) := @ih (by simp) each.2 steps
        simp only [fieldTexts] at enough after ⊢
        rw [listText] at enough ⊢
        generalize listText _ _ _ (_ :: _) = tail at enough after ⊢
        simp only [quoteText, List.length_append, List.length_cons, List.append_assoc, List.cons_append,
          List.nil_append] at enough ⊢
        have first := own fuel (',' :: (tail ++ rest)) (by omega) (by simp [Ends])
        simp only [members, skipGap (l.gapBlank _), skipNone (c := '"') rfl, stringRead,
          Option.bind_eq_bind, Option.bind_some, skipNone (c := ':') rfl, valueGap l.colonBlank, first,
          skipNone (c := ',') rfl, after fuel (by omega), Option.pure_def]

theorem valueDigit {c : Char} (digit : c.isDigit = true) (fuel : Nat) (rest : List Char) :
    value (fuel + 1) (c :: rest) = number false (c :: rest) := by
  have differs {mark : Char} (other : mark.isDigit = false) : c ≠ mark := by
    rintro rfl
    rw [digit] at other
    contradiction
  have quote : c ≠ '"' := differs rfl
  have bracket : c ≠ '[' := differs rfl
  have brace : c ≠ '{' := differs rfl
  have minus : c ≠ '-' := differs rfl
  have n : c ≠ 'n' := differs rfl
  have t : c ≠ 't' := differs rfl
  have f : c ≠ 'f' := differs rfl
  simp [value, skipNone (digitVisible digit), quote, bracket, brace, minus, n, t, f]

theorem listOpens {before : List Char} (blank : ∀ c ∈ before, isBlank c = true) {c : Char}
    (visible : isBlank c = false) (more after rest : List Char) (closing : Char)
    (parts : List (List Char)) :
    ∃ tail, skipBlanks (listText before after closing ((c :: more) :: parts) ++ rest) = c :: tail := by
  cases parts with
  | nil => exact ⟨_, by rw [listText, List.append_assoc, skipGap blank]; exact skipNone visible _⟩
  | cons next others =>
    exact ⟨_, by rw [listText, List.append_assoc, skipGap blank]; exact skipNone visible _⟩

theorem plainReads (l : Layout) {json : Json} (plain : json.Plain) (depth : Nat) :
    l.Reads depth json := by
  induction plain generalizing depth with
  | null =>
    refine readsStep .null fun fuel rest _ _ => ?_
    rfl
  | bool b =>
    refine readsStep (.bool b) fun fuel rest _ _ => ?_
    cases b <;> rfl
  | @nat n small =>
    refine readsStep (.nat small) fun fuel rest _ ends => ?_
    rw [natText]
    cases shape : Nat.toDigits 10 n with
    | nil => exact absurd shape Nat.toDigits_ne_nil
    | cons c digits =>
      have digit : c.isDigit = true := Nat.isDigit_of_mem_toDigits (by decide) (by decide)
        (shape ▸ List.mem_cons_self ..)
      rw [List.cons_append, valueDigit digit, ← List.cons_append, ← shape, numberRead small ends]
  | string value =>
    refine readsStep (.string value) fun fuel rest _ _ => ?_
    simp [text, quoteText, Reader.value, skipNone (c := '"') rfl, stringRead]
  | @array items each ih =>
    refine readsStep (.array each) fun fuel rest enough _ => ?_
    rw [text, List.length_cons] at enough
    rw [text, List.cons_append]
    cases items with
    | nil => rfl
    | cons item more =>
      have inside := itemsReadBack (List.cons_ne_nil item more) (fun x member => ih x member (depth + 1))
        rest (show _ ≤ fuel by omega)
      obtain ⟨c, start, shape, visible, closing⟩ :=
        textStarts l (depth + 1) (each item (List.mem_cons_self ..))
      rw [itemTexts, shape] at inside ⊢
      obtain ⟨tail, opened⟩ := listOpens (l.gapBlank (depth + 1)) visible start (l.gap depth) rest ']'
        (l.itemTexts (depth + 1) more)
      simp [value, skipNone (c := '[') rfl, opened, closing, inside]
  | @object fields each ih =>
    refine readsStep (.object each) fun fuel rest enough _ => ?_
    rw [text, List.length_cons] at enough
    rw [text, List.cons_append]
    cases fields with
    | nil => rfl
    | cons field more =>
      have inside := membersReadBack (List.cons_ne_nil field more)
        (fun x member => ih x member (depth + 1)) rest (show _ ≤ fuel by omega)
      obtain ⟨key, content⟩ := field
      rw [fieldTexts, quoteText, List.cons_append] at inside ⊢
      obtain ⟨tail, opened⟩ := listOpens (c := '"') (l.gapBlank (depth + 1)) rfl
        (key.toList.flatMap escapeChar ++ ['"'] ++ ':' :: (l.afterColon ++ l.text (depth + 1) content))
        (l.gap depth) rest '}' (l.fieldTexts (depth + 1) more)
      generalize listText _ _ _ _ ++ rest = body at inside opened ⊢
      simp [value, skipNone (c := '{') rfl, opened, inside]

end Layout

theorem parseLaid {json : Json} (plain : json.Plain) {text : String} {l : Layout} {depth : Nat}
    (laid : text.toList = l.text depth json) : parse? text = some json := by
  have read := l.plainReads plain depth (2 * (l.text depth json).length + 2) [] (by omega)
    (by simp [Ends])
  rw [List.append_nil] at read
  rw [parse?, laid]
  simp only [read]
  rfl

theorem parseCompact {json : Json} (plain : json.Plain) : parse? json.compact = some json :=
  parseLaid plain (compactLaid 0 json)

theorem parsePretty {json : Json} (plain : json.Plain) : parse? json.pretty = some json :=
  parseLaid plain (prettyLaid 0 json)

end EffectAudit.Json
