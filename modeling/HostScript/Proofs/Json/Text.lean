import HostScript.Json.Printer
import HostScript.Json.Reader
import HostScript.Text.Decimal

/-! What is printed as JSON is read back.

A string is escaped so that its quotes do not end it, and its spelling stands for the text that was
escaped. A whole number is read up to the first character that is no digit; in a printed value that is a
comma or a line break. Printed values are `Written`, and reading the print of such a value gives the value
and leaves what stands behind it. Every level of the reader takes one from its budget, and has at least
one character of its own, so the length of the print is budget enough. -/

namespace HostScript
namespace Json

/-! ### Strings -/

theorem hexValue?_hexDigit : ∀ n < 16, hexValue? (hexDigit n) = some n := by decide

theorem codeUnit?_of_lt {n : Nat} (h : n < 32) : codeUnit? '0' '0' (hexDigit (n / 16)) (hexDigit (n % 16)) = some n := by
  have hzero : hexValue? '0' = some 0 := by decide
  rw [codeUnit?, hexValue?_hexDigit _ (by omega), hexValue?_hexDigit _ (by omega), hzero]
  simp only [Option.some.injEq]
  omega

/-- A character either has an escape of one letter, or is a control character with an escape of its own
    number, or stands for itself. -/
theorem escapeChar_cases (c : Char) :
    (∃ e, e ≠ 'u' ∧ shortEscape? e = some c ∧ escapeChar c = ['\\', e]) ∨
    (c.toNat < 32 ∧ escapeChar c = ['\\', 'u', '0', '0', hexDigit (c.toNat / 16), hexDigit (c.toNat % 16)]) ∨
    (c ≠ '"' ∧ c ≠ '\\' ∧ ¬c.toNat < 32 ∧ escapeChar c = [c]) := by
  unfold escapeChar
  split
  next h => exact .inl ⟨'"', by decide, by rw [h]; decide, rfl⟩
  next hquote =>
  split
  next h => exact .inl ⟨'\\', by decide, by rw [h]; decide, rfl⟩
  next hslash =>
  split
  next h => exact .inl ⟨'b', by decide, by rw [h]; decide, rfl⟩
  next =>
  split
  next h => exact .inl ⟨'t', by decide, by rw [h]; decide, rfl⟩
  next =>
  split
  next h => exact .inl ⟨'n', by decide, by rw [h]; decide, rfl⟩
  next =>
  split
  next h => exact .inl ⟨'f', by decide, by rw [h]; decide, rfl⟩
  next =>
  split
  next h => exact .inl ⟨'r', by decide, by rw [h]; decide, rfl⟩
  next =>
  split
  next h => exact .inr (.inl ⟨h, rfl⟩)
  next h => exact .inr (.inr ⟨hquote, hslash, h, rfl⟩)

theorem readString_escapeChar (c : Char) (text : List Char) :
    readString (escapeChar c ++ text) =
      (readString text).map fun (spelling, rest) => (escapeChar c ++ spelling, rest) := by
  rcases escapeChar_cases c with ⟨e, he, hshort, h⟩ | ⟨hlt, h⟩ | ⟨hquote, hslash, hge, h⟩
  · rw [h]
    simp only [List.cons_append, List.nil_append]
    rw [readString]
    · rw [hshort]
      cases readString text <;> rfl
    · exact fun _ _ _ _ _ hu _ => he hu
  · rw [h]
    simp only [List.cons_append, List.nil_append]
    rw [readString, codeUnit?_of_lt hlt]
    cases readString text <;> rfl
  · rw [h]
    simp only [List.cons_append, List.nil_append]
    rw [readString]
    · simp [hslash, hge]
    · exact fun hc => hquote hc
    · exact fun _ _ _ _ _ hc _ => hslash hc
    · exact fun _ _ hc _ => hslash hc

/-- The closing quote is the first that is not escaped. -/
theorem readString_escape (text rest : List Char) :
    readString (escape text ++ '"' :: rest) = some (escape text, rest) := by
  induction text with
  | nil => simp [escape, readString]
  | cons c text ih =>
    have hcons : escape (c :: text) = escapeChar c ++ escape text := List.flatMap_cons
    rw [hcons, List.append_assoc, readString_escapeChar, ih]
    rfl

theorem joinUnits?_inr {unit : Nat} (h : unit < 32) (pieces : List (Char ⊕ Nat)) :
    joinUnits? (.inr unit :: pieces) = (joinUnits? pieces).map (Char.ofNat unit :: ·) := by
  have hhigh : isHighHalf unit = false := by
    simp only [isHighHalf, Bool.and_eq_false_iff, decide_eq_false_iff_not]
    omega
  have hlow : isLowHalf unit = false := by
    simp only [isLowHalf, Bool.and_eq_false_iff, decide_eq_false_iff_not]
    omega
  rcases pieces with _ | ⟨_ | low, pieces⟩ <;> simp [joinUnits?, hhigh, hlow]

/-- The piece that an escaped character is. -/
theorem pieces?_escapeChar (c : Char) : ∃ piece, (∀ text, pieces? (escapeChar c ++ text) = (pieces? text).map (piece :: ·)) ∧
    ∀ pieces, joinUnits? (piece :: pieces) = (joinUnits? pieces).map (c :: ·) := by
  rcases escapeChar_cases c with ⟨e, he, hshort, h⟩ | ⟨hlt, h⟩ | ⟨hquote, hslash, hge, h⟩
  · refine ⟨.inl c, fun text => ?_, fun pieces => by rw [joinUnits?]⟩
    rw [h]
    simp only [List.cons_append, List.nil_append]
    rw [pieces?]
    · rw [hshort]
      cases pieces? text <;> rfl
    · exact fun _ _ _ _ _ hu _ => he hu
  · refine ⟨.inr c.toNat, fun text => ?_, fun pieces => ?_⟩
    · rw [h]
      simp only [List.cons_append, List.nil_append]
      rw [pieces?, codeUnit?_of_lt hlt]
      cases pieces? text <;> rfl
    · rw [joinUnits?_inr hlt, Char.ofNat_toNat]
  · refine ⟨.inl c, fun text => ?_, fun pieces => by rw [joinUnits?]⟩
    rw [h]
    simp only [List.cons_append, List.nil_append]
    rw [pieces?]
    · simp [hslash]
    · exact fun _ _ _ _ _ hc _ => hslash hc
    · exact fun _ _ hc _ => hslash hc

/-- A spelling stands for the text that was escaped. -/
theorem unescape?_escape (text : List Char) : unescape? (escape text) = some (String.ofList text) := by
  suffices h : (pieces? (escape text)).bind joinUnits? = some text by rw [unescape?, h, Option.map_some]
  induction text with
  | nil => rfl
  | cons c text ih =>
    have hcons : escape (c :: text) = escapeChar c ++ escape text := List.flatMap_cons
    obtain ⟨piece, hpiece, hjoin⟩ := pieces?_escapeChar c
    obtain ⟨pieces, hpieces, htext⟩ := Option.bind_eq_some_iff.mp ih
    rw [hcons, hpiece, hpieces, Option.map_some, Option.bind_some, hjoin, htext, Option.map_some]

/-! ### Numbers -/

/-- What may stand behind a value in a print: nothing, a comma or a line break. -/
def Ends (rest : List Char) : Prop := ∀ c ∈ rest.head?, c = ',' ∨ c = '\n'

/-- Whole numbers in their shortest form. -/
inductive Numeral : List Char → Prop
  | natural (n : Nat) : Numeral (Decimal.digits n)
  | negative (n : Nat) : Numeral ('-' :: Decimal.digits n)

theorem isDigit_of_mem_digits {n : Nat} {c : Char} (h : c ∈ Decimal.digits n) : c.isDigit :=
  Nat.isDigit_of_mem_toDigits (by decide) (by decide) h

theorem digits_eq_cons (n : Nat) : ∃ c cs, Decimal.digits n = c :: cs ∧ c.isDigit := by
  cases h : Decimal.digits n with
  | nil => exact absurd h Nat.toDigits_ne_nil
  | cons c cs => exact ⟨c, cs, rfl, isDigit_of_mem_digits (n := n) (h ▸ List.mem_cons_self)⟩

/-- Only zero begins with the digit zero. -/
theorem head?_digits {n : Nat} (h : 0 < n) : (Decimal.digits n).head? ≠ some '0' := by
  induction n using Nat.strongRecOn with
  | ind n ih =>
    by_cases hlt : n < 10
    · have hdigit : ∀ k < 10, 0 < k → [k.digitChar].head? ≠ some '0' := by decide
      rw [Decimal.digits, Nat.toDigits_of_lt_base hlt]
      exact hdigit n hlt h
    · have hfirst := ih (n / 10) (by omega) (by omega)
      obtain ⟨c, cs, hc, -⟩ := digits_eq_cons (n / 10)
      rw [Decimal.digits, Nat.toDigits_of_base_le (by decide) (by omega)]
      rw [Decimal.digits] at hc hfirst
      rw [hc] at hfirst ⊢
      exact hfirst

section Numbers

variable {rest : List Char}

theorem Ends.takeWhile_isDigit (h : Ends rest) : rest.takeWhile Char.isDigit = [] := by
  cases rest with
  | nil => rfl
  | cons c cs => rcases h c rfl with rfl | rfl <;> rfl

theorem Ends.dropWhile_isDigit (h : Ends rest) : rest.dropWhile Char.isDigit = rest := by
  cases rest with
  | nil => rfl
  | cons c cs => rcases h c rfl with rfl | rfl <;> rfl

theorem readFraction_of_ends (h : Ends rest) : readFraction rest = some ([], rest) := by
  cases rest with
  | nil => rfl
  | cons c cs => rcases h c rfl with rfl | rfl <;> rfl

theorem readExponent_of_ends (h : Ends rest) : readExponent rest = some ([], rest) := by
  cases rest with
  | nil => rfl
  | cons c cs => rcases h c rfl with rfl | rfl <;> rfl

theorem readDigits_digits (n : Nat) (h : Ends rest) :
    readDigits (Decimal.digits n ++ rest) = some (Decimal.digits n, rest) := by
  have hall : ∀ c ∈ Decimal.digits n, c.isDigit := fun c hc => isDigit_of_mem_digits hc
  have hne : (Decimal.digits n).isEmpty = false := by simp [Decimal.digits, Nat.toDigits_ne_nil]
  unfold readDigits
  rw [List.takeWhile_append_of_pos hall, List.dropWhile_append_of_pos hall, h.takeWhile_isDigit, h.dropWhile_isDigit,
    List.append_nil]
  simp [hne]

theorem readWhole_digits (n : Nat) (h : Ends rest) :
    readWhole (Decimal.digits n ++ rest) = some (Decimal.digits n, rest) := by
  by_cases hn : n = 0
  · subst hn
    have hzero : Decimal.digits 0 = ['0'] := rfl
    have hrest : rest.head?.any Char.isDigit = false := by
      cases rest with
      | nil => rfl
      | cons c cs => rcases h c rfl with rfl | rfl <;> rfl
    rw [hzero, List.singleton_append, readWhole, hrest]
    rfl
  · obtain ⟨c, cs, hc, -⟩ := digits_eq_cons n
    have hne : c ≠ '0' := by
      rintro rfl
      exact head?_digits (Nat.pos_of_ne_zero hn) (by rw [hc]; rfl)
    have hread : readWhole (Decimal.digits n ++ rest) = readDigits (Decimal.digits n ++ rest) := by
      rw [hc, List.cons_append, readWhole]
      exact fun _ hz => hne (List.cons.inj hz).1
    rw [hread, readDigits_digits n h]

theorem readNumber_numeral {spelling : List Char} (hs : Numeral spelling) (h : Ends rest) :
    readNumber (spelling ++ rest) = some (spelling, rest) := by
  cases hs with
  | natural n =>
    obtain ⟨c, cs, hc, hdigit⟩ := digits_eq_cons n
    have hminus : c ≠ '-' := by
      rintro rfl
      cases hdigit
    have hwhole := readWhole_digits n h
    rw [hc, List.cons_append] at hwhole ⊢
    unfold readNumber
    split
    next sign text hsign =>
      split at hsign
      next heq => exact absurd (List.cons.inj heq).1 hminus
      next =>
        cases hsign
        simp [hwhole, readFraction_of_ends h, readExponent_of_ends h]
  | negative n =>
    simp [readNumber, readWhole_digits n h, readFraction_of_ends h, readExponent_of_ends h]

end Numbers

/-! ### Values -/

/-- The values that are written: numbers are whole, and the spellings of strings come from texts. -/
inductive Written : Json → Prop
  | null : Written null
  | bool (value : Bool) : Written (bool value)
  | number {spelling : List Char} (numeral : Numeral spelling) : Written (number spelling)
  | string (text : List Char) : Written (string (escape text))
  | array {items : List Json} (values : ∀ item ∈ items, Written item) : Written (array items)
  | object {fields : List (List Char × Json)} (names : ∀ field ∈ fields, ∃ text, field.1 = escape text)
      (values : ∀ field ∈ fields, Written field.2) : Written (object fields)

/-- Neither a space nor a closing bracket. -/
def opens (c : Char) : Bool := !isSpace c && c ≠ ']'

theorem opens_of_isDigit {c : Char} (h : c.isDigit) : opens c := by
  have hne : ∀ d : Char, d.isDigit = false → c ≠ d := by
    rintro d hd rfl
    rw [h] at hd
    cases hd
  simp [opens, isSpace, hne ' ' rfl, hne '\t' rfl, hne '\n' rfl, hne '\r' rfl, hne ']' rfl]

theorem print_eq_cons {value : Json} (h : Written value) (indent : Nat) : ∃ c cs, print indent value = c :: cs ∧ opens c := by
  cases h with
  | null => exact ⟨_, _, rfl, rfl⟩
  | bool b => cases b <;> exact ⟨_, _, rfl, rfl⟩
  | number hs =>
    simp only [print]
    cases hs with
    | natural n =>
      obtain ⟨c, cs, hc, hdigit⟩ := digits_eq_cons n
      exact ⟨c, cs, hc, opens_of_isDigit hdigit⟩
    | negative n => exact ⟨_, _, rfl, rfl⟩
  | string text => exact ⟨_, _, rfl, rfl⟩
  | @array items _ => cases items <;> exact ⟨_, _, rfl, rfl⟩
  | @object fields _ _ => rcases fields with _ | ⟨⟨name, value⟩, fields⟩ <;> exact ⟨_, _, rfl, rfl⟩

section Values

variable {text rest : List Char}

theorem skipSpace_newLine (indent : Nat) (text : List Char) : skipSpace (newLine indent ++ text) = skipSpace text := by
  have hall : ∀ c ∈ newLine indent, isSpace c := by
    intro c hc
    rcases List.mem_cons.mp hc with rfl | hc
    · rfl
    · rw [List.eq_of_mem_replicate hc]
      rfl
  exact List.dropWhile_append_of_pos hall

theorem skipSpace_print {value : Json} (h : Written value) (indent : Nat) (rest : List Char) :
    skipSpace (print indent value ++ rest) = print indent value ++ rest := by
  obtain ⟨c, cs, hc, hopens⟩ := print_eq_cons h indent
  have hspace : isSpace c = false := by simpa using ((Bool.and_eq_true _ _).mp hopens).1
  rw [hc, List.cons_append, skipSpace, List.dropWhile_cons_of_neg (by simp [hspace])]

theorem ends_newLine (indent : Nat) (rest : List Char) : Ends (newLine indent ++ rest) := fun c hc => by
  cases hc
  exact .inr rfl

theorem ends_comma (rest : List Char) : Ends (',' :: rest) := fun c hc => by
  cases hc
  exact .inl rfl

theorem readValue_numeral {spelling : List Char} (hs : Numeral spelling) (hr : Ends rest) {n : Nat}
    (h : skipSpace text = spelling ++ rest) : readValue (n + 1) text = some (number spelling, rest) := by
  have hnumber := readNumber_numeral hs hr
  have hhead : ∃ c cs, spelling = c :: cs ∧ (c = '-' ∨ c.isDigit) := by
    cases hs with
    | natural n =>
      obtain ⟨c, cs, hc, hdigit⟩ := digits_eq_cons n
      exact ⟨c, cs, hc, .inr hdigit⟩
    | negative n => exact ⟨_, _, rfl, .inl rfl⟩
  obtain ⟨c, cs, rfl, hc⟩ := hhead
  have hne : ∀ d : Char, d ≠ '-' → d.isDigit = false → c ≠ d := by
    rintro d hminus hd rfl
    rcases hc with rfl | hc
    · exact hminus rfl
    · rw [hc] at hd
      cases hd
  rw [readValue, h]
  split
  case h_7 => rw [hnumber, Option.map_some]
  all_goals next heq => exact absurd (List.cons.inj heq).1 (hne _ (by decide) rfl)

/-- With a budget of the length of its print, the value is read from a text that begins with its print. -/
def ReadBack (value : Json) : Prop := ∀ {indent n : Nat} {text rest : List Char},
  (print indent value).length ≤ n → Ends rest → skipSpace text = print indent value ++ rest →
    readValue n text = some (value, rest)

section Lists

variable {indent : Nat} {behind : List Char}

theorem Ends.printItems (h : Ends behind) (items : List Json) : Ends (printItems indent items ++ behind) := by
  cases items with
  | nil => exact h
  | cons item items => exact ends_comma _

theorem Ends.printFields (h : Ends behind) (fields : List (List Char × Json)) :
    Ends (printFields indent fields ++ behind) := by
  rcases fields with _ | ⟨⟨name, value⟩, fields⟩
  · exact h
  · exact ends_comma _

/-- The items of an array, from one on, up to the closing bracket. -/
theorem readItems_print (hends : Ends behind) (hclose : skipSpace behind = ']' :: rest) :
    ∀ {items : List Json} {item : Json}, (∀ v ∈ item :: items, Written v ∧ ReadBack v) → ∀ {n : Nat} {text : List Char},
      (print indent item).length + (printItems indent items).length < n →
      skipSpace text = print indent item ++ (printItems indent items ++ behind) →
        readItems n text = some (item :: items, rest)
  | items, item, hitems, n + 1, text, hn, ht => by
    have hle : (print indent item).length ≤ n := by omega
    rw [readItems, (hitems item List.mem_cons_self).2 hle (hends.printItems items) ht]
    cases items with
    | nil => simp only [printItems, List.nil_append, hclose]
    | cons next items =>
      have hnext : ∀ v ∈ next :: items, Written v ∧ ReadBack v := fun v hv => hitems v (List.mem_cons_of_mem item hv)
      have hcomma : skipSpace (printItems indent (next :: items) ++ behind) =
          ',' :: (newLine indent ++ (print indent next ++ (printItems indent items ++ behind))) := by
        simp only [printItems, List.cons_append, List.append_assoc]
        rfl
      have hskip := skipSpace_newLine indent (print indent next ++ (printItems indent items ++ behind))
      rw [skipSpace_print (hnext next List.mem_cons_self).1] at hskip
      simp only [printItems, List.length_append, List.length_cons] at hn
      have hrest : readItems n _ = _ := readItems_print hends hclose hnext (by omega) hskip
      simp only [hcomma, hrest, Option.map_some]

/-- The fields of an object, from one on, up to the closing brace. -/
theorem readFields_print (hends : Ends behind) (hclose : skipSpace behind = '\x7d' :: rest) :
    ∀ {fields : List (List Char × Json)} {name : List Char} {value : Json},
      (∀ f ∈ (name, value) :: fields, (∃ text, f.1 = escape text) ∧ Written f.2 ∧ ReadBack f.2) →
        ∀ {n : Nat} {text : List Char}, (print indent value).length + (printFields indent fields).length < n →
        skipSpace text = '"' :: (name ++ '"' :: ':' :: ' ' :: (print indent value ++ (printFields indent fields ++ behind))) →
          readFields n text = some ((name, value) :: fields, rest)
  | fields, name, value, hfields, n + 1, text, hn, ht => by
    obtain ⟨⟨spelt, rfl⟩, hwritten, hback⟩ := hfields _ List.mem_cons_self
    have hle : (print indent value).length ≤ n := by omega
    have hcolon (t : List Char) : skipSpace (':' :: t) = ':' :: t := rfl
    have hskip : skipSpace (' ' :: (print indent value ++ (printFields indent fields ++ behind))) =
        print indent value ++ (printFields indent fields ++ behind) := skipSpace_print hwritten indent _
    rw [readFields, ht]
    simp only [readString_escape, hcolon, hback hle (hends.printFields fields) hskip]
    rcases fields with _ | ⟨⟨name, next⟩, fields⟩
    · simp only [printFields, List.nil_append, hclose]
    · have hnext : ∀ f ∈ (name, next) :: fields, (∃ text, f.1 = escape text) ∧ Written f.2 ∧ ReadBack f.2 :=
        fun f hf => hfields f (List.mem_cons_of_mem _ hf)
      have hcomma : skipSpace (printFields indent ((name, next) :: fields) ++ behind) =
          ',' :: (newLine indent ++ '"' :: (name ++ '"' :: ':' :: ' ' :: (print indent next ++
            (printFields indent fields ++ behind)))) := by
        simp only [printFields, quoted, List.cons_append, List.append_assoc, List.nil_append]
        rfl
      have hskip := skipSpace_newLine indent ('"' :: (name ++ '"' :: ':' :: ' ' :: (print indent next ++
        (printFields indent fields ++ behind))))
      simp only [printFields, List.length_append, List.length_cons] at hn
      have hrest : readFields n _ = _ := readFields_print hends hclose hnext (by omega) hskip
      simp only [hcomma, hrest, Option.map_some]

end Lists

theorem readValue_string (spelt : List Char) {n : Nat} (h : skipSpace text = quoted (escape spelt) ++ rest) :
    readValue (n + 1) text = some (string (escape spelt), rest) := by
  simp only [quoted, List.cons_append, List.append_assoc, List.nil_append] at h
  simp only [readValue, h, readString_escape, Option.map_some]

/-- Behind the bracket that opens an array stands a value. -/
theorem readValue_items {value : Json} (hv : Written value) {indent n : Nat} {inner : List Char}
    (h : skipSpace text = '[' :: (newLine indent ++ (print indent value ++ inner))) :
    readValue (n + 1) text =
      (readItems n (newLine indent ++ (print indent value ++ inner))).map fun (items, rest) => (array items, rest) := by
  obtain ⟨c, cs, hc, hopens⟩ := print_eq_cons hv indent
  have hclose : c ≠ ']' := by simpa using ((Bool.and_eq_true _ _).mp hopens).2
  rw [readValue, h]
  simp only [skipSpace_newLine, skipSpace_print hv]
  rw [hc, List.cons_append]
  split
  next heq => exact absurd (List.cons.inj heq).1 hclose
  next => rfl

theorem exists_succ_of_print {value : Json} (h : Written value) {indent n : Nat} (hn : (print indent value).length ≤ n) :
    ∃ k, n = k + 1 := by
  obtain ⟨c, cs, hc, -⟩ := print_eq_cons h indent
  rw [hc, List.length_cons] at hn
  exact ⟨n - 1, by omega⟩

/-- A written value is read back from its print. -/
theorem readBack {value : Json} (h : Written value) : ReadBack value := by
  induction h with
  | null =>
    intro indent n text rest hn hr ht
    obtain ⟨n, rfl⟩ := exists_succ_of_print .null hn
    rw [readValue, ht]
    rfl
  | bool b =>
    intro indent n text rest hn hr ht
    obtain ⟨n, rfl⟩ := exists_succ_of_print (.bool b) hn
    rw [readValue, ht]
    cases b <;> rfl
  | number hs =>
    intro indent n text rest hn hr ht
    obtain ⟨n, rfl⟩ := exists_succ_of_print (.number hs) hn
    exact readValue_numeral hs hr ht
  | string spelt =>
    intro indent n text rest hn hr ht
    obtain ⟨n, rfl⟩ := exists_succ_of_print (.string spelt) hn
    exact readValue_string spelt ht
  | @array items hitems ih =>
    intro indent n text rest hn hr ht
    obtain ⟨n, rfl⟩ := exists_succ_of_print (.array hitems) hn
    cases items with
    | nil =>
      rw [readValue, ht]
      rfl
    | cons item items =>
      simp only [print, List.cons_append, List.append_assoc, List.nil_append] at ht
      simp only [print, List.length_append, List.length_cons] at hn
      have hitem := hitems item List.mem_cons_self
      have hskip := skipSpace_newLine (indent + 2) (print (indent + 2) item ++ (printItems (indent + 2) items ++
        (newLine indent ++ ']' :: rest)))
      rw [skipSpace_print hitem] at hskip
      have hread : readItems n _ = _ := readItems_print (ends_newLine indent _) (skipSpace_newLine indent (']' :: rest))
        (fun v hv => ⟨hitems v hv, ih v hv⟩) (by omega) hskip
      rw [readValue_items hitem ht, hread, Option.map_some]
  | @object fields hnames hvalues ih =>
    intro indent n text rest hn hr ht
    obtain ⟨n, rfl⟩ := exists_succ_of_print (.object hnames hvalues) hn
    rcases fields with _ | ⟨⟨name, value⟩, fields⟩
    · rw [readValue, ht]
      rfl
    · simp only [print, quoted, List.cons_append, List.append_assoc, List.nil_append] at ht
      simp only [print, List.length_append, List.length_cons] at hn
      have hskip := skipSpace_newLine (indent + 2) ('"' :: (name ++ '"' :: ':' :: ' ' :: (print (indent + 2) value ++
        (printFields (indent + 2) fields ++ (newLine indent ++ '\x7d' :: rest)))))
      have hread : readFields n _ = _ := readFields_print (ends_newLine indent _)
        (skipSpace_newLine indent ('\x7d' :: rest)) (fun f hf => ⟨hnames f hf, hvalues f hf, ih f hf⟩) (by omega) hskip
      rw [readValue, ht]
      simp only [skipSpace_newLine]
      rw [hread]
      rfl

/-- Reading the text of a written value gives the value. -/
theorem read?_text {value : Json} (h : Written value) : read? value.text = some value := by
  have hread : readValue (2 * (print 0 value).length + 1) (print 0 value ++ []) = some (value, []) :=
    readBack h (by omega) (fun c hc => by cases hc) (skipSpace_print h 0 [])
  rw [List.append_nil] at hread
  simp only [read?, Json.text, String.toList_ofList, hread]
  rfl

end Values
end Json
end HostScript
