import HostScript.Token.Stream

/-! Words in a text.

A text is laid out in words if blanks stand between them. A form takes from a place what it finds in
the text there (`Terminal.find?`), and what stands behind a word that the form stops at makes no
difference (`Pattern.match?_append`). -/

namespace HostScript

/-! ### Characters -/

theorem toNat_of_isDigit {c : Char} (h : c.isDigit) : 48 ≤ c.toNat ∧ c.toNat ≤ 57 :=
  ((Bool.and_eq_true _ _).mp h).imp of_decide_eq_true of_decide_eq_true

theorem toNat_of_isNameStart {c : Char} (h : isNameStart c) :
    (65 ≤ c.toNat ∧ c.toNat ≤ 90) ∨ (97 ≤ c.toNat ∧ c.toNat ≤ 122) ∨ c.toNat = 95 := by
  rcases (Bool.or_eq_true _ _).mp h with h | h
  · rcases (Bool.or_eq_true _ _).mp h with h | h
    · exact .inl (of_decide_eq_true h)
    · exact .inr (.inl (((Bool.and_eq_true _ _).mp h).imp of_decide_eq_true of_decide_eq_true))
  · cases beq_iff_eq.mp h
    decide

/-- The characters of a name are its first ones and the digits. -/
theorem isNameStart_or_isDigit {c : Char} (h : isNameChar c) : isNameStart c ∨ c.isDigit := by
  simp only [isNameStart, isNameChar, Char.isAlphanum, Bool.or_eq_true] at h ⊢
  rcases h with (h | h) | h
  · exact .inl (.inl h)
  · exact .inr h
  · exact .inl (.inr h)

theorem toNat_of_isNameChar {c : Char} (h : isNameChar c) : 48 ≤ c.toNat ∧ c.toNat ≤ 122 := by
  rcases isNameStart_or_isDigit h with h | h
  · have := toNat_of_isNameStart h
    omega
  · have := toNat_of_isDigit h
    omega

theorem not_isBlank_of_isNameChar {c : Char} (h : isNameChar c) : isBlank c = false := by
  have := toNat_of_isNameChar h
  simp [isBlank]
  omega

theorem isNameChar_of_isDigit {c : Char} (h : c.isDigit) : isNameChar c := by
  simp [isNameChar, Char.isAlphanum, h]

theorem isNameChar_of_isNameStart {c : Char} (h : isNameStart c) : isNameChar c := by
  simp only [isNameStart, isNameChar, Char.isAlphanum, Bool.or_eq_true] at h ⊢
  rcases h with h | h
  · exact .inl (.inl h)
  · exact .inr h

theorem isWordChar_of_isNameChar {c : Char} (h : isNameChar c) : isWordChar c := by
  have := toNat_of_isNameChar h
  rw [isWordChar, if_pos (by omega)]
  exact h

theorem not_isNameChar_of_not_isWordChar {c : Char} (h : isWordChar c = false) : isNameChar c = false := by
  cases hn : isNameChar c with
  | false => rfl
  | true =>
    rw [isWordChar_of_isNameChar hn] at h
    cases h

/-- The blanks above ASCII are in none of the ranges of word characters. -/
theorem wordRanges_blank : ∀ n ∈ [0x85, 0xA0, 0x1680, 0x2000, 0x2001, 0x2002, 0x2003, 0x2004, 0x2005, 0x2006, 0x2007,
      0x2008, 0x2009, 0x200A, 0x2028, 0x2029, 0x202F, 0x205F, 0x3000],
    wordRanges.any (fun (first, last) => first ≤ n && n ≤ last) = false := by
  decide +kernel

theorem not_isWordChar_of_isBlank {c : Char} (h : isBlank c) : isWordChar c = false := by
  unfold isWordChar
  split
  next =>
    cases hc : c.isAlphanum || c == '_' with
    | false => rfl
    | true =>
      rw [not_isBlank_of_isNameChar hc] at h
      cases h
  next hlarge =>
    refine wordRanges_blank c.toNat ?_
    simp [isBlank] at h ⊢
    omega

/-! ### Patterns -/

/-- Nothing follows, or a blank. -/
def Apart (text : List Char) : Prop := ∀ c ∈ text.head?, isBlank c

theorem takeWhile_append {p : Char → Bool} {text : List Char} (ht : ∀ c ∈ text.head?, p c = false) (word : List Char) :
    (word ++ text).takeWhile p = word.takeWhile p := by
  induction word with
  | nil =>
    cases text with
    | nil => rfl
    | cons c text => simp [ht c rfl]
  | cons c word ih => cases hc : p c <;> simp [hc, ih]

theorem isPrefixOf_append {text : List Char} : ∀ (sign word : List Char), (∀ c ∈ text.head?, c ∉ sign) →
    sign.isPrefixOf (word ++ text) = sign.isPrefixOf word
  | [], word, _ => by simp
  | c :: sign, [], ht => by
    cases text with
    | nil => rfl
    | cons d text =>
      have hne : (c == d) = false := by
        rw [beq_eq_false_iff_ne]
        rintro rfl
        exact ht c rfl List.mem_cons_self
      simp [List.isPrefixOf, hne]
  | c :: sign, d :: word, ht => by
    have ih := isPrefixOf_append sign word fun e he hmem => ht e he (List.mem_cons_of_mem c hmem)
    simp [List.isPrefixOf, ih]

namespace Pattern

/-- The fixed text of the pattern has no blank in it. -/
def solid : Pattern → Bool
  | sign s | keyword s => s.toList.all (!isBlank ·)
  | name | number => true

/-- The character does not make a match longer, nor spoils it. -/
def stops : Pattern → Char → Bool
  | sign s, c => !s.toList.tail.contains c
  | keyword k, c => !k.toList.contains c && !isWordChar c
  | name, c => !isNameChar c
  | number, c => !c.isDigit

/-- A blank stops every pattern. -/
theorem stops_of_isBlank {c : Char} (hc : isBlank c) : ∀ {pattern : Pattern}, pattern.solid → pattern.stops c
  | sign s, h => by
    have hs : ∀ d ∈ s.toList, isBlank d = false := by simpa [solid] using h
    simp only [stops, Bool.not_eq_true', List.contains_eq_mem, decide_eq_false_iff_not]
    intro hmem
    rw [hs c (List.mem_of_mem_tail hmem)] at hc
    cases hc
  | keyword k, h => by
    have hk : ∀ d ∈ k.toList, isBlank d = false := by simpa [solid] using h
    simp only [stops, not_isWordChar_of_isBlank hc, Bool.not_false, Bool.and_true, Bool.not_eq_true',
      List.contains_eq_mem, decide_eq_false_iff_not]
    intro hmem
    rw [hk c hmem] at hc
    cases hc
  | name, _ => by
    cases hn : isNameChar c with
    | false => simp [stops, hn]
    | true =>
      rw [not_isBlank_of_isNameChar hn] at hc
      cases hc
  | number, _ => by
    cases hn : c.isDigit with
    | false => simp [stops, hn]
    | true =>
      rw [not_isBlank_of_isNameChar (isNameChar_of_isDigit hn)] at hc
      cases hc

/-- What a pattern matches at a word is what it matches in the word, if it stops behind it. -/
theorem match?_append {word text : List Char} (hw : word = [] → text = []) : ∀ {pattern : Pattern},
    (∀ c ∈ text.head?, pattern.stops c) → pattern.match? (word ++ text) = pattern.match? word
  | sign s, h => by
    have hs : ∀ c ∈ text.head?, c ∉ s.toList.tail := fun c hc => by simpa [stops] using h c hc
    have hprefix : s.toList.isPrefixOf (word ++ text) = s.toList.isPrefixOf word := by
      cases hl : s.toList with
      | nil => simp
      | cons c cs =>
        cases word with
        | nil => rw [hw rfl, List.append_nil]
        | cons d word =>
          rw [hl] at hs
          simp only [List.cons_append, List.isPrefixOf, isPrefixOf_append cs word hs]
    simp only [match?, hprefix]
  | keyword k, h => by
    have hk : ∀ c ∈ text.head?, c ∉ k.toList ∧ isWordChar c = false := fun c hc => by simpa [stops] using h c hc
    have hnext : k.toList.isPrefixOf word → ((word ++ text).drop k.length).head?.any isWordChar =
        (word.drop k.length).head?.any isWordChar := by
      intro hp
      obtain ⟨more, rfl⟩ := List.isPrefixOf_iff_prefix.mp hp
      rw [← String.length_toList, List.append_assoc, List.drop_left, List.drop_left]
      cases more with
      | cons c more => rfl
      | nil =>
        cases text with
        | nil => rfl
        | cons c text => simp [(hk c rfl).2]
    simp only [match?, isPrefixOf_append k.toList word fun c hc => (hk c hc).1]
    cases hp : k.toList.isPrefixOf word with
    | false => rfl
    | true => rw [hnext hp]
  | name, h => by
    cases word with
    | nil => rw [hw rfl, List.append_nil]
    | cons c word =>
      have hstop : ∀ c ∈ text.head?, isNameChar c = false := fun c hc => by simpa [stops] using h c hc
      simp only [List.cons_append, match?, takeWhile_append hstop]
  | number, h => by
    have hstop : ∀ c ∈ text.head?, c.isDigit = false := fun c hc => by simpa [stops] using h c hc
    simp only [match?, takeWhile_append hstop]

end Pattern

/-! ### Places -/

namespace Place

/-- The place `q` is at or behind `p`, in the same text. -/
def Reaches (p q : Place) : Prop := ∃ front, p.rest = front ++ q.rest ∧ q.position = p.position.afterAll front

theorem Reaches.refl (p : Place) : p.Reaches p := ⟨[], rfl, rfl⟩

theorem Reaches.trans {p q r : Place} (h₁ : p.Reaches q) (h₂ : q.Reaches r) : p.Reaches r := by
  obtain ⟨front, hrest, hpos⟩ := h₁
  obtain ⟨more, hrest', hpos'⟩ := h₂
  refine ⟨front ++ more, ?_, ?_⟩
  · rw [hrest, hrest', List.append_assoc]
  · rw [hpos', hpos, Position.afterAll, Position.afterAll, Position.afterAll, List.foldl_append]

/-- The number of bytes of a text. -/
def bytes : List Char → Nat
  | [] => 0
  | c :: text => c.utf8Size + bytes text

theorem offset_afterAll (text : List Char) : ∀ p : Position, (p.afterAll text).offset = p.offset + bytes text := by
  induction text with
  | nil => intro p; rfl
  | cons c text ih =>
    intro p
    have hafter : (p.after c).offset = p.offset + c.utf8Size := by
      unfold Position.after
      split <;> rfl
    rw [Position.afterAll, List.foldl_cons, ← Position.afterAll, ih, hafter, bytes, Nat.add_assoc]

/-- A cut behind the bytes of a text is one behind the text. -/
theorem cutBytes_append (rest : List Char) : ∀ front : List Char,
    cutBytes (bytes front) (front ++ rest) = some (front, rest)
  | [] => by simp [cutBytes, bytes]
  | c :: front => by
    have hpos := c.utf8Size_pos
    obtain ⟨n, hn⟩ : ∃ n, c.utf8Size + bytes front = n + 1 := ⟨c.utf8Size + bytes front - 1, by omega⟩
    rw [bytes, hn, List.cons_append, cutBytes, if_pos (by omega), ← hn, Nat.add_sub_cancel_left,
      cutBytes_append rest front]
    rfl

/-- A cut between two places leads from the one to the other. -/
theorem Reaches.cut?_eq {p q : Place} (h : p.Reaches q) :
    ∃ front, p.cut? (q.position.offset - p.position.offset) = some (front, q) := by
  obtain ⟨front, hrest, hpos⟩ := h
  refine ⟨front, ?_⟩
  rw [cut?, hpos, offset_afterAll, Nat.add_sub_cancel_left, hrest, cutBytes_append, Option.map_some]
  simp only [← hpos]

end Place

/-! ### Words -/

/-- A text that is words with blanks between them, and maybe before and behind them. -/
inductive Layout : List String → List Char → Prop
  | done {gap : List Char} (blank : ∀ c ∈ gap, isBlank c) : Layout [] gap
  | word {gap text : List Char} {w : String} {ws : List String} (blank : ∀ c ∈ gap, isBlank c)
      (apart : Apart text) (rest : Layout ws text) : Layout (w :: ws) (gap ++ w.toList ++ text)

theorem Layout.blank {ws : List String} {text : List Char} {c : Char} (h : Layout ws text) (hc : isBlank c) :
    Layout ws (c :: text) := by
  cases h with
  | done blank => exact .done (List.forall_mem_cons.mpr ⟨hc, blank⟩)
  | word blank apart rest => exact .word (List.forall_mem_cons.mpr ⟨hc, blank⟩) apart rest

/-- One blank between words is enough. -/
theorem layout_intercalate : ∀ ws : List String, Layout ws (" ".intercalate ws).toList
  | [] => .done (by simp)
  | [w] => by
    have hword : Layout [w] ([] ++ w.toList ++ []) := .word (by simp) (by simp [Apart]) (.done (by simp))
    simpa [String.toList_intercalate] using hword
  | w :: v :: ws => by
    have hrest : Layout (v :: ws) (' ' :: (" ".intercalate (v :: ws)).toList) := (layout_intercalate (v :: ws)).blank rfl
    have happart : Apart (' ' :: (" ".intercalate (v :: ws)).toList) := by simp [Apart, isBlank]
    have hword : Layout (w :: v :: ws) ([] ++ w.toList ++ _) := .word (by simp) happart hrest
    simpa [String.toList_intercalate] using hword

/-- A word has characters, and none of them is a blank. -/
def Solid (w : String) : Prop := w.toList ≠ [] ∧ ∀ c ∈ w.toList, isBlank c = false

instance (w : String) : Decidable (Solid w) :=
  decidable_of_iff ((!w.toList.isEmpty && w.toList.all (!isBlank ·)) = true) (by simp [Solid])

/-- The text is laid out in words that are solid. -/
structure Laid (ws : List String) (text : List Char) : Prop where
  layout : Layout ws text
  solid : ∀ w ∈ ws, Solid w

theorem skipBlanks_eq {p : Place} {gap text : List Char} (hp : p.rest = gap ++ text) (hg : ∀ c ∈ gap, isBlank c)
    (ht : ∀ c ∈ text.head?, isBlank c = false) : (Cursor.ofPlace p).skipBlanks = ⟨p, p.drop gap.length⟩ := by
  have htake : p.rest.takeWhile isBlank = gap := by
    rw [hp, List.takeWhile_append_of_pos hg]
    cases text with
    | nil => simp
    | cons c text => simp [ht c rfl]
  simp only [Cursor.skipBlanks, Cursor.rest, Cursor.ofPlace, Cursor.drop, htake]

/-! ### Forms at a text -/

namespace Terminal

/-- The text that a form finds at the front of another, and what that stands for. -/
def find? (form : Terminal) (w : String) : Option (List Char × Payload) :=
  match form.pattern.match? w.toList with
  | none => none
  | some text =>
    match form.read text with
    | .ok payload => some (text, payload)
    | .error _ => none

variable {form : Terminal} {p start : Place}

/-- A form takes from a place what it finds in the text that is left there. -/
theorem attempt_of_find? {text : List Char} {payload : Payload}
    (h : form.find? (String.ofList start.rest) = some (text, payload)) :
    form.attempt ⟨p, start⟩ =
      .token ⟨form.kind, String.ofList text, start.position, payload⟩ ⟨p, start.drop text.length⟩ := by
  unfold find? at h
  rw [String.toList_ofList] at h
  split at h
  · cases h
  next hmatch =>
    split at h
    next hread =>
      cases h
      simp only [attempt, Cursor.rest, hmatch, hread, Cursor.drop]
    next => cases h

theorem failure_of_find? (h : form.find? (String.ofList start.rest) = none) :
    ∃ reason, form.attempt ⟨p, start⟩ = .failure reason := by
  unfold find? at h
  rw [String.toList_ofList] at h
  split at h
  next hmatch => exact ⟨_, by simp only [attempt, Cursor.rest, hmatch]; rfl⟩
  next hmatch =>
    split at h
    next => cases h
    next reason hread => exact ⟨reason, by simp only [attempt, Cursor.rest, hmatch, hread]⟩

end Terminal

/-! ### Names and numbers -/

/-- A name is a letter or an underscore followed by letters, digits and underscores. -/
def isName (w : String) : Bool :=
  match w.toList with
  | [] => false
  | c :: cs => isNameStart c && cs.all isNameChar

/-- A number is a run of decimal digits. -/
def isNumber (w : String) : Bool := !w.toList.isEmpty && w.toList.all Char.isDigit

variable {w : String}

theorem cons_of_isName (h : isName w) : ∃ c cs, w.toList = c :: cs ∧ isNameStart c ∧ ∀ d ∈ cs, isNameChar d := by
  unfold isName at h
  split at h
  · cases h
  next c cs hw =>
    rw [Bool.and_eq_true, List.all_eq_true] at h
    exact ⟨c, cs, hw, h.1, h.2⟩

theorem isDigit_of_mem_number (h : isNumber w) {c : Char} (hc : c ∈ w.toList) : c.isDigit := by
  rw [isNumber, Bool.and_eq_true, List.all_eq_true] at h
  exact h.2 c hc

theorem cons_of_isNumber (h : isNumber w) : ∃ c cs, w.toList = c :: cs ∧ c.isDigit := by
  cases hw : w.toList with
  | nil => simp [isNumber, hw] at h
  | cons c cs => exact ⟨c, cs, rfl, isDigit_of_mem_number h (hw ▸ List.mem_cons_self)⟩

theorem takeWhile_eq_self {p : Char → Bool} {cs : List Char} (h : ∀ c ∈ cs, p c) : cs.takeWhile p = cs := by
  have happend : (cs ++ []).takeWhile p = cs ++ [].takeWhile p := List.takeWhile_append_of_pos h
  simpa using happend

theorem isNameChar_of_mem_name (h : isName w) {c : Char} (hc : c ∈ w.toList) : isNameChar c := by
  obtain ⟨d, ds, hw, hd, hds⟩ := cons_of_isName h
  rw [hw] at hc
  rcases List.mem_cons.mp hc with rfl | hc
  · exact isNameChar_of_isNameStart hd
  · exact hds c hc

theorem solid_of_isName (h : isName w) : Solid w := by
  refine ⟨?_, fun c hc => not_isBlank_of_isNameChar (isNameChar_of_mem_name h hc)⟩
  obtain ⟨c, cs, hw, -⟩ := cons_of_isName h
  simp [hw]

theorem solid_of_isNumber (h : isNumber w) : Solid w := by
  refine ⟨?_, fun c hc => not_isBlank_of_isNameChar (isNameChar_of_isDigit (isDigit_of_mem_number h hc))⟩
  obtain ⟨c, cs, hw, -⟩ := cons_of_isNumber h
  simp [hw]

/-- No letter is a digit. -/
theorem not_isDigit_of_isNameStart {c : Char} (h : isNameStart c) : c.isDigit = false := by
  cases hd : c.isDigit with
  | false => rfl
  | true =>
    have := toNat_of_isNameStart h
    have := toNat_of_isDigit hd
    omega

namespace Pattern

theorem match?_name (h : isName w) : name.match? w.toList = some w.toList := by
  obtain ⟨c, cs, hw, hc, hcs⟩ := cons_of_isName h
  rw [hw, match?, if_pos hc, takeWhile_eq_self hcs]

theorem match?_number (h : isNumber w) : number.match? w.toList = some w.toList := by
  have htake : w.toList.takeWhile Char.isDigit = w.toList :=
    takeWhile_eq_self fun c hc => isDigit_of_mem_number h hc
  obtain ⟨c, cs, hw, -⟩ := cons_of_isNumber h
  simp only [match?, htake]
  simp [hw]

theorem match?_name_of_number (h : isNumber w) : name.match? w.toList = none := by
  obtain ⟨c, cs, hw, hc⟩ := cons_of_isNumber h
  have hstart : isNameStart c = false := by
    cases hs : isNameStart c with
    | false => rfl
    | true =>
      rw [not_isDigit_of_isNameStart hs] at hc
      cases hc
  simp [match?, hw, hstart]

/-- A sign that starts with no letter or digit is not in a word that does. -/
theorem match?_sign_of_nameChar {s : String} (hs : s.toList.head?.all (!isNameChar ·) && !s.toList.isEmpty)
    {c : Char} {cs : List Char} (hw : w.toList = c :: cs) (hc : isNameChar c) : (sign s).match? w.toList = none := by
  cases hl : s.toList with
  | nil => simp [hl] at hs
  | cons d ds =>
    have hd : isNameChar d = false := by simpa [hl] using hs
    have hne : (d == c) = false := by
      rw [beq_eq_false_iff_ne]
      rintro rfl
      rw [hc] at hd
      cases hd
    simp [match?, hw, hl, List.isPrefixOf, hne]

/-- A keyword is found in no other name. -/
theorem match?_keyword_of_name {k : String} (h : isName w) (hk : w ≠ k) : (keyword k).match? w.toList = none := by
  cases hp : k.toList.isPrefixOf w.toList with
  | false => simp [match?, hp]
  | true =>
    obtain ⟨more, hw⟩ := List.isPrefixOf_iff_prefix.mp hp
    cases more with
    | nil =>
      rw [List.append_nil, String.toList_inj] at hw
      exact absurd hw.symm hk
    | cons c more =>
      have hc : isNameChar c := isNameChar_of_mem_name h (hw ▸ by simp)
      rw [← hw, match?, ← String.length_toList, List.drop_left]
      simp [isWordChar_of_isNameChar hc]

/-- A keyword that starts with no digit is not in a number. -/
theorem match?_keyword_of_number {k : String} (h : isNumber w)
    (hk : k.toList.head?.all (!Char.isDigit ·) && !k.toList.isEmpty) :
    (keyword k).match? w.toList = none := by
  obtain ⟨c, cs, hw, hc⟩ := cons_of_isNumber h
  cases hl : k.toList with
  | nil => simp [hl] at hk
  | cons d ds =>
    have hd : d.isDigit = false := by simpa [hl] using hk
    have hne : (d == c) = false := by
      rw [beq_eq_false_iff_ne]
      rintro rfl
      rw [hc] at hd
      cases hd
    simp [match?, hw, hl, List.isPrefixOf, hne]

end Pattern
end HostScript
