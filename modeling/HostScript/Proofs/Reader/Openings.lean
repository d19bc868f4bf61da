import HostScript.Proofs.Reader.Derivations
import HostScript.Proofs.Reader.Termination

/-! How statements and expressions begin in a text.

Words may stand side by side without blanks, so what a form finds at the front of a text depends on more
than a word. But a sign is told by its first character and a name or keyword ends where no word character
follows, so what the forms of most states find is what they find in the first word (`Fronts`). That word
tells which forms of a statement decline. -/

namespace HostScript

open TokenStream Reader

/-! ### The words of a statement -/

/-- The words with which a statement can begin. -/
def Begins (w : String) : Prop := Starts w ∨ w ∈ ["return", ";", "\x7b", "if"]

/-- A keyword that starts no expression is found in no word that does. -/
theorem Starts.find?_keyword {w k : String} {kind : TokenKind} (h : Starts w) (hk : k ∈ ["var", "return", "if", "else"]) :
    (Terminal.keyword kind k).find? w = none := by
  rcases h with ⟨h, hfree⟩ | h | h
  · refine Terminal.find?_eq_none (Pattern.match?_keyword_of_name h (ne_of_not_isKeyword hfree ?_))
    simp only [List.mem_cons, List.not_mem_nil, or_false] at hk
    rcases hk with rfl | rfl | rfl | rfl <;> rfl
  · refine Terminal.find?_eq_none (Pattern.match?_keyword_of_number h ?_)
    simp only [List.mem_cons, List.not_mem_nil, or_false] at hk
    rcases hk with rfl | rfl | rfl | rfl <;> rfl
  · simp only [List.mem_cons, List.not_mem_nil, or_false] at h hk
    rcases h with rfl | rfl | rfl | rfl | rfl | rfl <;> rcases hk with rfl | rfl | rfl | rfl <;> rfl

/-- A sign that starts no expression is found in no word that does. -/
theorem Starts.find?_sign {w s : String} {kind : TokenKind} (h : Starts w) (hs : s ∈ [";", "\x7b", "\x7d"]) :
    (Terminal.sign kind s).find? w = none := by
  have hsign : s.toList.head?.all (!isNameChar ·) && !s.toList.isEmpty := by
    simp only [List.mem_cons, List.not_mem_nil, or_false] at hs
    rcases hs with rfl | rfl | rfl <;> rfl
  rcases h with ⟨h, -⟩ | h | h
  · obtain ⟨c, cs, hw, hc, -⟩ := cons_of_isName h
    exact HostScript.find?_sign rfl hsign hw (isNameChar_of_isNameStart hc)
  · obtain ⟨c, cs, hw, hc⟩ := cons_of_isNumber h
    exact HostScript.find?_sign rfl hsign hw (isNameChar_of_isDigit hc)
  · simp only [List.mem_cons, List.not_mem_nil, or_false] at h hs
    rcases h with rfl | rfl | rfl | rfl | rfl | rfl <;> rcases hs with rfl | rfl | rfl <;> rfl

/-- No statement begins with `else`, nor a program with `var` if it declares nothing. -/
theorem Begins.find?_keyword {w k : String} {kind : TokenKind} (h : Begins w) (hk : k ∈ ["var", "else"]) :
    (Terminal.keyword kind k).find? w = none := by
  simp only [List.mem_cons, List.not_mem_nil, or_false] at hk
  rcases h with h | h
  · exact h.find?_keyword (by rcases hk with rfl | rfl <;> decide)
  · simp only [List.mem_cons, List.not_mem_nil, or_false] at h
    rcases h with rfl | rfl | rfl | rfl <;> rcases hk with rfl | rfl <;> rfl

theorem Begins.find?_rightBrace {w : String} (h : Begins w) : (Terminal.sign .rightBrace "\x7d").find? w = none := by
  rcases h with h | h
  · exact h.find?_sign (by decide)
  · simp only [List.mem_cons, List.not_mem_nil, or_false] at h
    rcases h with rfl | rfl | rfl | rfl <;> rfl

theorem find?_target {w : String} (named : isName w) (free : isKeyword w = false) :
    Matcher.find? w (Grammar.assignment.matchers .begin) = some (.name, w.toList, .none) := by
  simp only [Grammar.assignment, Matcher.find?, find?_reference named free]
  rfl

theorem find?_declared {w : String} (named : isName w) :
    Matcher.find? w (Grammar.declaration.matchers .pre) = some (.name, w.toList, .none) := by
  have hfind : Terminal.name.find? w = some (w.toList, .none) := by
    simp only [Terminal.find?, Terminal.pattern, Pattern.match?_name named, Terminal.read]
  simp only [Grammar.declaration, Matcher.find?, hfind]
  rfl

/-! ### The first word of a text -/

/-- The matches of the pattern are no longer than a word. -/
def Pattern.plain : Pattern → Bool
  | sign s => s.toList.length == 1
  | keyword k => !k.toList.isEmpty && k.toList.all isNameChar
  | name | number => true

/-- Behind blanks the text begins with the word, which does not run on into what follows. -/
structure Fronts (text : List Char) (w : String) (tail : List Char) : Prop where
  front : text.dropWhile isBlank = w.toList ++ tail
  solid : Solid w
  ends : isSign w ∨ ∀ d ∈ tail.head?, isWordChar d = false

theorem fronts_append {gap tail : List Char} {w : String} (hg : ∀ c ∈ gap, isBlank c) (hw : Solid w)
    (hends : isSign w ∨ ∀ d ∈ tail.head?, isWordChar d = false) : Fronts (gap ++ w.toList ++ tail) w tail := by
  refine ⟨?_, hw, hends⟩
  obtain ⟨c, cs, hl⟩ := List.exists_cons_of_ne_nil hw.1
  have hc : isBlank c = false := hw.2 c (hl ▸ List.mem_cons_self)
  rw [List.append_assoc, List.dropWhile_append_of_pos hg, hl, List.cons_append, List.dropWhile_cons, hc]
  rfl

namespace Fronts

variable {text tail : List Char} {w : String}

theorem blank {gap : List Char} (h : Fronts text w tail) (hg : ∀ c ∈ gap, isBlank c) : Fronts (gap ++ text) w tail :=
  ⟨(List.dropWhile_append_of_pos hg).trans h.front, h.solid, h.ends⟩

theorem eq_append (h : Fronts text w tail) : text = text.takeWhile isBlank ++ w.toList ++ tail := by
  rw [List.append_assoc, ← h.front, List.takeWhile_append_dropWhile]

/-- The first character is a blank or that of the first word. -/
theorem head (h : Fronts text w tail) {d : Char} (hd : d ∈ text.head?) : isBlank d ∨ d ∈ w.toList.head? := by
  cases hb : isBlank d with
  | true => exact .inl rfl
  | false =>
    obtain ⟨more, rfl⟩ := List.head?_eq_some_iff.mp hd
    have hfront := h.front
    rw [List.dropWhile_cons, hb] at hfront
    obtain ⟨c, cs, hl⟩ := List.exists_cons_of_ne_nil h.solid.1
    rw [hl] at hfront ⊢
    cases hfront
    exact .inr rfl

end Fronts

namespace Pattern

/-- A sign is no word, whatever follows it. -/
theorem match?_eq_none_of_head {c : Char} (hc : isNameChar c = false) (text : List Char) : ∀ {pattern : Pattern},
    (∀ s, pattern ≠ sign s) → pattern.plain → pattern.match? (c :: text) = none
  | sign s, hs, _ => absurd rfl (hs s)
  | keyword k, _, hp => by
    simp only [plain, Bool.and_eq_true, Bool.not_eq_true', List.isEmpty_eq_false_iff, List.all_eq_true] at hp
    obtain ⟨d, ds, hl⟩ := List.exists_cons_of_ne_nil hp.1
    have hne : (d == c) = false := by
      rw [beq_eq_false_iff_ne]
      rintro rfl
      rw [hp.2 d (hl ▸ List.mem_cons_self)] at hc
      cases hc
    simp [match?, hl, List.isPrefixOf, hne]
  | name, _, _ => by
    cases hs : isNameStart c with
    | false => simp [match?, hs]
    | true =>
      rw [isNameChar_of_isNameStart hs] at hc
      cases hc
  | number, _, _ => by
    cases hd : c.isDigit with
    | false => simp [match?, hd]
    | true =>
      rw [isNameChar_of_isDigit hd] at hc
      cases hc

/-- No word character goes on with a match. -/
theorem stops_of_plain {c : Char} (hc : isWordChar c = false) : ∀ {pattern : Pattern}, pattern.plain → pattern.stops c
  | sign s, hp => by
    obtain ⟨d, hd⟩ := List.length_eq_one_iff.mp (beq_iff_eq.mp hp)
    simp [stops, hd]
  | keyword k, hp => by
    simp only [plain, Bool.and_eq_true, List.all_eq_true] at hp
    simp only [stops, hc, Bool.not_false, Bool.and_true, Bool.not_eq_true', List.contains_eq_mem, decide_eq_false_iff_not]
    intro hmem
    have hname := not_isNameChar_of_not_isWordChar hc
    rw [hp.2 c hmem] at hname
    cases hname
  | name, _ => by simp [stops, not_isNameChar_of_not_isWordChar hc]
  | number, _ => by
    cases hd : c.isDigit with
    | false => simp [stops, hd]
    | true =>
      have hname := not_isNameChar_of_not_isWordChar hc
      rw [isNameChar_of_isDigit hd] at hname
      cases hname

end Pattern

/-- What a plain form matches at the front of a text is what it matches in the first word. -/
theorem Fronts.match?_eq {text tail : List Char} {w : String} (h : Fronts text w tail) {pattern : Pattern}
    (hp : pattern.plain) : pattern.match? (w.toList ++ tail) = pattern.match? w.toList := by
  have hne : w.toList = [] → tail = [] := fun hnil => absurd hnil h.solid.1
  rcases h.ends with hsign | hends
  · obtain ⟨c, cs, hl, hc⟩ := head_of_isSign hsign
    cases pattern with
    | sign s =>
      obtain ⟨d, hd⟩ := List.length_eq_one_iff.mp (beq_iff_eq.mp hp)
      exact Pattern.match?_append hne fun _ _ => by simp [Pattern.stops, hd]
    | _ => rw [hl, List.cons_append, Pattern.match?_eq_none_of_head hc _ (by simp) hp,
        Pattern.match?_eq_none_of_head hc _ (by simp) hp]
  · exact Pattern.match?_append hne fun c hc => Pattern.stops_of_plain (hends c hc) hp

/-- The form is a word that ends where words do. -/
def Matcher.plain : Matcher → Bool
  | terminal form => form.pattern.plain
  | rule _ => false

theorem Matcher.lexical_of_plain {forms : List Matcher} (h : forms.all plain) : ∀ form ∈ forms, form.lexical := by
  intro form hmem
  have hform := List.all_eq_true.mp h form hmem
  cases form with
  | terminal form => rfl
  | rule form => cases hform

theorem Fronts.find?_eq {text tail : List Char} {w : String} (h : Fronts text w tail) : ∀ {forms : List Matcher},
    forms.all Matcher.plain → Matcher.find? (String.ofList (w.toList ++ tail)) forms = Matcher.find? w forms
  | [], _ => rfl
  | .terminal form :: forms, hl => by
    obtain ⟨hform, hforms⟩ := (Bool.and_eq_true _ _).mp hl
    have hsame : form.find? (String.ofList (w.toList ++ tail)) = form.find? w := by
      simp only [Terminal.find?, String.toList_ofList, h.match?_eq hform]
    simp only [Matcher.find?, hsame, h.find?_eq hforms]
  | .rule form :: forms, hl => by cases ((Bool.and_eq_true _ _).mp hl).1

theorem Fronts.ahead?_eq {S : Type} {text tail : List Char} {w : String} (h : Fronts text w tail) {g : Grammar S} {state : S}
    (hl : (g.matchers state).all Matcher.plain) : g.ahead? state text = Matcher.find? w (g.matchers state) := by
  rw [Grammar.ahead?, h.front, h.find?_eq hl]

/-- A character at the front of a statement that is in no name is in no word. -/
theorem Begins.head {w : String} (h : Begins w) {d : Char} (hd : d ∈ w.toList.head?) (hname : isNameChar d = false) :
    isWordChar d = false := by
  have habsurd (h : isNameChar d) : isWordChar d = false := by
    rw [hname] at h
    cases h
  rcases h with (⟨h, -⟩ | h | h) | h
  · obtain ⟨c, cs, hl, hc, -⟩ := cons_of_isName h
    rw [hl] at hd
    cases hd
    exact habsurd (isNameChar_of_isNameStart hc)
  · obtain ⟨c, cs, hl, hc⟩ := cons_of_isNumber h
    rw [hl] at hd
    cases hd
    exact habsurd (isNameChar_of_isDigit hc)
  · simp only [List.mem_cons, List.not_mem_nil, or_false] at h
    rcases h with rfl | rfl | rfl | rfl | rfl | rfl <;> cases hd <;> first | rfl | exact habsurd rfl
  · simp only [List.mem_cons, List.not_mem_nil, or_false] at h
    rcases h with rfl | rfl | rfl | rfl <;> cases hd <;> first | rfl | exact habsurd rfl

/-! ### Places -/

namespace Place

/-- Blanks before it apart, the text stands at the place. -/
def Shows (p : Place) (text : List Char) : Prop := p.rest.dropWhile isBlank = text.dropWhile isBlank

variable {p : Place} {text tail : List Char}

theorem shows_of_rest (h : p.rest = text) : p.Shows text := by rw [Shows, h]

theorem Shows.skip (h : p.Shows text) : p.skip.Shows text := by
  rw [Shows, ← h, p.spans_skip.rest, List.dropWhile_append_of_pos isBlank_of_mem_takeWhile]

theorem Shows.of_gap {gap : List Char} (h : p.Shows (gap ++ text)) (hg : ∀ c ∈ gap, isBlank c) : p.Shows text := by
  rw [Shows, h, List.dropWhile_append_of_pos hg]

theorem Shows.fronts {w : String} (h : p.Shows text) (hf : Fronts text w tail) : Fronts p.rest w tail :=
  ⟨h.trans hf.front, hf.solid, hf.ends⟩

end Place

/-- The words stand at the place, with the blanks that are there before the first. -/
theorem Joined.of_shows {p : Place} {u tail : List Char} {w : String} {ws : List String} (h : Joined (w :: ws) u)
    (hw : Solid w) (hp : p.Shows (u ++ tail)) : ∃ v, Joined (w :: ws) v ∧ p.rest = v ++ tail := by
  obtain ⟨gap, text, rfl, hg, hparted, hws⟩ := h.of_cons
  refine ⟨p.rest.takeWhile isBlank ++ w.toList ++ text, .cons isBlank_of_mem_takeWhile hparted hws, ?_⟩
  -- the end of the word does not matter for the blanks before it
  obtain ⟨c, cs, hl⟩ := List.exists_cons_of_ne_nil hw.1
  have hc : isBlank c = false := hw.2 c (hl ▸ List.mem_cons_self)
  have hdrop : p.rest.dropWhile isBlank = w.toList ++ text ++ tail := by
    rw [hp, List.append_assoc, List.append_assoc, List.dropWhile_append_of_pos hg, hl]
    simp [hc]
  calc p.rest = p.rest.takeWhile isBlank ++ p.rest.dropWhile isBlank := List.takeWhile_append_dropWhile.symm
    _ = p.rest.takeWhile isBlank ++ w.toList ++ text ++ tail := by rw [hdrop]; simp only [List.append_assoc]

/-- The next piece stands at the place. -/
theorem Joined.shows {p : Place} {u z : List Char} {v : String} {ws : List String} (h : Joined (v :: ws) u)
    (hp : p.Shows (u ++ z)) : ∃ text, Joined ws text ∧ p.Shows (v.toList ++ (text ++ z)) := by
  obtain ⟨gap, text, rfl, hg, -, hws⟩ := h.of_cons
  rw [List.append_assoc, List.append_assoc] at hp
  exact ⟨text, hws, hp.of_gap hg⟩

namespace Joined

variable {u : List Char} {w : String} {ws : List String}

/-- A sign at the front of joined words. -/
theorem fronts_sign (h : Joined (w :: ws) u) (hw : Solid w) (hs : isSign w) (z : List Char) :
    ∃ text, Joined ws text ∧ Fronts (u ++ z) w (text ++ z) := by
  obtain ⟨gap, text, rfl, hg, -, hws⟩ := h.of_cons
  rw [List.append_assoc]
  exact ⟨text, hws, fronts_append hg hw (.inl hs)⟩

theorem fronts_last (h : Joined [w] u) (hw : Solid w) (hs : isSign w) (z : List Char) : Fronts (u ++ z) w z := by
  obtain ⟨gap, rfl, hg⟩ := h.of_singleton
  exact fronts_append hg hw (.inl hs)

/-- A word with a sign behind it. -/
theorem fronts_word {v : String} (h : Joined (w :: v :: ws) u) (hw : Solid w) (hv : v.toList.head?.any (!isWordChar ·))
    (z : List Char) : ∃ text, Joined (v :: ws) text ∧ Fronts (u ++ z) w (text ++ z) := by
  obtain ⟨gap, text, rfl, hg, -, hws⟩ := h.of_cons
  refine ⟨text, hws, ?_⟩
  rw [List.append_assoc]
  refine fronts_append hg hw (.inr ?_)
  obtain ⟨gap', text', rfl, hg', -⟩ := hws.of_cons
  cases hhead : v.toList.head? with
  | none => simp [hhead] at hv
  | some d =>
    rw [List.append_assoc]
    exact Ahead.ends_sign hg' hhead (by simpa [hhead] using hv) (text' ++ z)

/-- A keyword with the front of a statement behind it. -/
theorem fronts_keyword (h : Joined (w :: ws) u) (hw : Solid w) (hlast : w.toList.getLast?.any isNameChar) {z : List Char}
    (hws : ∀ text, Joined ws text → text ≠ [] ∧ ∃ v tail, Fronts (text ++ z) v tail ∧ Begins v) :
    ∃ text, Joined ws text ∧ Fronts (u ++ z) w (text ++ z) := by
  obtain ⟨gap, text, rfl, hg, hparted, hjoined⟩ := h.of_cons
  refine ⟨text, hjoined, ?_⟩
  rw [List.append_assoc]
  refine fronts_append hg hw (.inr fun d hd => ?_)
  obtain ⟨hne, v, tail, hfront, hv⟩ := hws text hjoined
  rcases hfront.head hd with hblank | hmem
  · exact not_isWordChar_of_isBlank hblank
  · refine hv.head hmem ?_
    cases hc : w.toList.getLast? with
    | none => simp [hc] at hlast
    | some c =>
      obtain ⟨first, more, rfl⟩ := List.exists_cons_of_ne_nil hne
      exact hparted c hc d hd (by simpa [hc] using hlast)

end Joined

/-! ### Words and rules that are found -/

namespace Matcher

variable {rules : RuleReader} {p start : Place}

/-- Forms behind the one that matches make no difference. -/
theorem scan_append (after : List Matcher) {cursor : Cursor} {found : Token × Cursor} : ∀ {forms : List Matcher}
    {failures : List Failure}, scan rules cursor forms = (.ok (some found), failures) →
      scan rules cursor (forms ++ after) = (.ok (some found), failures)
  | form :: forms, failures, h => by
    rw [List.cons_append]
    unfold scan at h ⊢
    cases ha : form.attempt rules cursor with
    | token token behind =>
      rw [ha] at h
      exact h
    | stop reason =>
      rw [ha] at h
      cases h
    | failure reason =>
      rw [ha] at h
      dsimp only at h ⊢
      rcases hs : scan rules cursor forms with ⟨found', failures'⟩
      rw [hs] at h
      cases h
      rw [scan_append after hs]

theorem misses_of_find? : ∀ {forms : List Matcher}, (∀ form ∈ forms, form.lexical) →
    find? (String.ofList start.rest) forms = none → ∀ form ∈ forms, form.Misses rules p start
  | [], _, _ => by simp
  | terminal form :: forms, hl, hf => by
    cases hfind : form.find? (String.ofList start.rest) with
    | some found => simp [find?, hfind] at hf
    | none =>
      simp only [find?, hfind] at hf
      exact List.forall_mem_cons.mpr ⟨Terminal.failure_of_find? hfind,
        misses_of_find? (fun other ho => hl other (List.mem_cons_of_mem _ ho)) hf⟩
  | rule form :: forms, hl, _ => by cases hl _ List.mem_cons_self

end Matcher

section Found

variable {S : Type} [DecidableEq S] {rules : RuleReader} {g : Grammar S} {state : S} {p : Place} {w : String}
  {tail : List Char} {after : List Matcher}

/-- The words that a state allows come before its rules. -/
theorem finds_front (rules : RuleReader) (g : Grammar S) (state : S) (words : List Matcher)
    (hm : g.matchers state = words ++ after) (hstate : state ≠ g.stop) (hl : words.all Matcher.plain)
    (h : Fronts p.rest w tail) {kind : TokenKind} {payload : Payload}
    (hf : Matcher.find? w words = some (kind, w.toList, payload)) :
    ∃ position q, Finds rules g state p (some (⟨kind, w, position, payload⟩, q)) ∧ q.rest = tail := by
  have hrest : p.skip.rest = w.toList ++ tail := by rw [p.rest_skip, h.front]
  obtain ⟨failures, hscan⟩ : ∃ failures, Matcher.scan rules ⟨p, p.skip⟩ words = (_, failures) :=
    Matcher.scan_lexical (Matcher.lexical_of_plain hl)
  rw [hrest, h.find?_eq hl, hf] at hscan
  have hall := hm ▸ Matcher.scan_append after hscan
  simp only [String.ofList_toList] at hall
  exact ⟨p.skip.position, p.skip.drop w.toList.length, finds_of_scan hstate rfl hall, (Place.spans_drop hrest).rest_eq hrest⟩

/-- Words that are not at the front are missed. -/
theorem misses_front {words : List Matcher} (h : Fronts p.rest w tail) (hl : words.all Matcher.plain)
    (hf : Matcher.find? w words = none) : ∀ form ∈ words, form.Misses rules p p.skip := by
  have hnone := h.find?_eq hl
  rw [hf, ← h.front, ← p.rest_skip] at hnone
  exact Matcher.misses_of_find? (Matcher.lexical_of_plain hl) hnone

/-- A rule is found where the forms before it do not match. -/
theorem finds_nested (g : Grammar S) (state : S) (before : List Matcher) {form : Rule}
    (hm : g.matchers state = before ++ .rule form :: after) (hstate : state ≠ g.stop)
    (hb : ∀ other ∈ before, other.Misses rules p p.skip) {payload : Payload} {q : Place}
    (hread : rules form (.ofPlace p.skip) = .ok (payload, .ofPlace q)) (hr : p.skip.Reaches q) :
    ∃ text position, Finds rules g state p (some (⟨form.kind, text, position, payload⟩, q)) := by
  obtain ⟨text, hattempt⟩ := Rule.attempt_of_ok (p := p) hread hr
  obtain ⟨failures, hscan⟩ := Matcher.scan_of_token (.rule form) after hb hattempt
  rw [← hm] at hscan
  exact ⟨text, p.skip.position, finds_of_scan hstate rfl hscan⟩

theorem finds_none (hstate : state ≠ g.stop) (hm : ∀ form ∈ g.matchers state, form.Misses rules p p.skip) :
    Finds rules g state p none := by
  obtain ⟨failures, hscan⟩ := Matcher.scan_of_misses hm
  exact finds_of_scan hstate rfl hscan

end Found

namespace Reader

variable {S : Type} [DecidableEq S] {ctx : Context} {g : Grammar S} {state next : S} {p : Place} {w : String}
  {tail : List Char} {kinds : List TokenKind}

/-- The first word is a token of one of the kinds. -/
theorem Reads.front (ctx : Context) (g : Grammar S) (state : S) (kinds : List TokenKind) (next : S)
    (h : Fronts p.rest w tail) (hstate : state ≠ g.stop) (hl : (g.matchers state).all Matcher.plain) {kind : TokenKind}
    {payload : Payload} (hf : Matcher.find? w (g.matchers state) = some (kind, w.toList, payload))
    (hk : kinds.contains kind) :
    ∃ position q, Reads ctx g (Reader.accept ctx kinds next) state p (some ⟨kind, w, position, payload⟩) next q ∧
      q.rest = tail := by
  obtain ⟨position, q, hfinds, hq⟩ := finds_front ctx.rules g state (g.matchers state) (List.append_nil _).symm
    hstate hl h hf
  exact ⟨position, q, .accept hfinds hk, hq⟩

/-- The first word is no token of the kinds. -/
theorem Reads.other_front (h : Fronts p.rest w tail) (hstate : state ≠ g.stop) (hl : (g.matchers state).all Matcher.plain)
    (hf : (Matcher.find? w (g.matchers state)).any (kinds.contains ·.1) = false) :
    Reads ctx g (Reader.accept ctx kinds next) state p none state p :=
  .none_ahead hstate (Matcher.lexical_of_plain hl) (by rwa [h.ahead?_eq hl])

end Reader

/-! ### Forms that decline -/

/-- The rule declines what stands at the place. -/
def Rule.DeclinesAt (scope : Scope) (rule : Rule) (p : Place) : Prop :=
  ∃ cause, Rule.read scope rule (.ofPlace p) = .error (.error cause) ∧ cause.isDefinitive = false

namespace Rule

variable {scope : Scope} {p : Place} {w : String} {tail : List Char}

theorem wrap_declines {α : Type} {make : α → Payload} {result : Except Stop (α × Cursor)}
    (h : ∃ cause, result = .error (.error cause) ∧ cause.isDefinitive = false) :
    ∃ cause, wrap make result = .error (.error cause) ∧ cause.isDefinitive = false := by
  obtain ⟨cause, rfl, hsoft⟩ := h
  exact ⟨cause, rfl, hsoft⟩

theorem DeclinesAt.misses {rule : Rule} (h : rule.DeclinesAt scope p.skip) :
    (Matcher.rule rule).Misses (read scope) p p.skip := by
  obtain ⟨cause, he, hsoft⟩ := h
  exact misses_of_error he hsoft

/-- A rule declines a text at the front of which stands no word that it can begin with. -/
theorem declines_ahead {S α : Type} [DecidableEq S] {ctx : Context} {g : Grammar S} {kinds : List TokenKind}
    {next : S} {f : Token → Reader S α} (hstate : g.start ≠ g.stop) (hl : ∀ form ∈ g.matchers g.start, form.lexical)
    (h : g.ahead? g.start p.rest = none) :
    ∃ cause, (expect ctx kinds next >>= f).run g (.ofPlace p) = .error (.error cause) ∧ cause.isDefinitive = false := by
  have hno : Reads ctx g (accept ctx kinds next) g.start p none g.start p := .none_ahead hstate hl (by rw [h]; rfl)
  exact (Declines.expect hno).bind.run

theorem declines_declaration (h : Grammar.declaration.ahead? .begin p.rest = none) : declaration.DeclinesAt scope p := by
  rw [DeclinesAt, read_eq_body]
  exact wrap_declines (declines_ahead (by decide) (by decide) h)

theorem declines_assignment (h : Fronts p.rest w tail) (hw : Terminal.reference.find? w = none) :
    assignment.DeclinesAt scope p := by
  rw [DeclinesAt, read_eq_body]
  refine wrap_declines (declines_ahead (by decide) (by decide) ((h.ahead?_eq (by decide)).trans ?_))
  simp only [Grammar.assignment, Matcher.find?, hw]

theorem declines_if (h : Fronts p.rest w tail) (hw : (Terminal.keyword .ifWord "if").find? w = none) :
    ifStatement.DeclinesAt scope p := by
  rw [DeclinesAt, read_eq_body]
  refine wrap_declines (declines_ahead (by decide) (by decide) ((h.ahead?_eq (by decide)).trans ?_))
  simp only [Grammar.ifStatement, Matcher.find?, hw]

theorem declines_return (h : Fronts p.rest w tail) (hw : (Terminal.keyword .returnWord "return").find? w = none) :
    returnStatement.DeclinesAt scope p := by
  rw [DeclinesAt, read_eq_body]
  refine wrap_declines (declines_ahead (by decide) (by decide) ((h.ahead?_eq (by decide)).trans ?_))
  simp only [Grammar.returnStatement, Matcher.find?, hw]

open Grammar (ExprState) in
/-- No expression starts with a word that is neither an operand nor opens one. -/
theorem declines_expression (h : Fronts p.rest w tail) (hw : Matcher.find? w (Grammar.expression.matchers .pre) = none) :
    expression.DeclinesAt scope p := by
  have hno (kinds : List TokenKind) (next : ExprState) :
      Reads scope.context Grammar.expression (accept scope.context kinds next) .pre p none .pre p :=
    .other_front h (by decide) (by decide) (by rw [hw]; rfl)
  have hoperand (n : Nat) : Declines scope.context Grammar.expression (operand scope.context (n + 1)) .pre p := by
    unfold operand
    exact (hno _ _).bind_declines ((hno _ _).bind_declines ((hno _ _).bind_declines (Declines.expect (hno _ _)).bind))
  have hsub (n : Nat) :
      Declines scope.context Grammar.expression (subexpression scope.context (n + 2) BinaryOp.loosest) .pre p := by
    unfold subexpression
    exact (hoperand n).bind
  rw [DeclinesAt, read_eq_body]
  exact wrap_declines (hsub (4 * p.rest.length + 2)).run

end Rule

/-! ### The front of an expression -/

/-- The text ends an expression or goes on with an operator. -/
def Ending (text : List Char) : Prop :=
  ∃ w tail, Fronts text w tail ∧ (w ∈ [";", ")", ","] ∨ ∃ op : BinaryOp, w = op.symbol)

theorem Ending.ends {text : List Char} (h : Ending text) : ∀ d ∈ text.head?, isWordChar d = false := by
  obtain ⟨w, tail, hfront, hw⟩ := h
  have hhead : w.toList.head?.all (!isWordChar ·) := by
    rcases hw with hw | ⟨op, rfl⟩
    · simp only [List.mem_cons, List.not_mem_nil, or_false] at hw
      rcases hw with rfl | rfl | rfl <;> rfl
    · rcases op with op | op <;> cases op <;> rfl
  intro d hd
  rcases hfront.head hd with hblank | hmem
  · exact not_isWordChar_of_isBlank hblank
  · simpa [Option.mem_def.mp hmem] using hhead

/-- An expression starts with no name, with a call or with a variable, behind which it goes on with an
    operator or ends. -/
theorem Expr.Spelled.fronts {scope : Scope} {c : Nat} {e : Expr} {ws : List String} (h : e.Spelled c ws)
    (ht : e.Typed scope) : ∀ {u z : List Char}, Joined ws u → Ending z → ∃ w tail, Fronts (u ++ z) w tail ∧ Starts w ∧
      (Terminal.reference.find? w = none ∨ isName w ∧ isKeyword w = false ∧
        ((∃ args, Fronts tail "(" args) ∨ (∃ target, scope.variableNamed? w = some target) ∧ Ending tail)) := by
  induction h with
  | number number =>
    intro u z hu hz
    obtain ⟨gap, rfl, hg⟩ := hu.of_singleton
    exact ⟨_, z, fronts_append hg (solid_of_isNumber number) (.inr hz.ends), .inr (.inl number),
      .inl (Terminal.find?_eq_none (Pattern.match?_name_of_number number))⟩
  | boolean b =>
    intro u z hu hz
    obtain ⟨gap, rfl, hg⟩ := hu.of_singleton
    exact ⟨_, z, fronts_append hg (by cases b <;> decide) (.inr hz.ends), .inr (.inr (by cases b <;> decide)),
      .inl (by cases b <;> rfl)⟩
  | var named free =>
    intro u z hu hz
    obtain ⟨gap, rfl, hg⟩ := hu.of_singleton
    cases ht with
    | var found =>
      exact ⟨_, z, fronts_append hg (solid_of_isName named) (.inr hz.ends), .inl ⟨named, free⟩,
        .inr ⟨named, free, .inr ⟨⟨_, found⟩, hz⟩⟩⟩
  | unary op =>
    intro u z hu hz
    obtain ⟨gap, text, rfl, hg, -⟩ := hu.of_cons
    rw [List.append_assoc]
    exact ⟨_, _, fronts_append hg op.solid_symbol (.inl (by cases op <;> rfl)), .inr (.inr (by cases op <;> decide)),
      .inl (by cases op <;> rfl)⟩
  | binary op below first second ih =>
    intro u z hu hz
    obtain ⟨-, -, leftTyped, -⟩ := typed_binary ht
    obtain ⟨u₁, u₂, rfl, h₁, h₂⟩ := hu.split
    obtain ⟨gap, text, rfl, hg, -⟩ := h₂.of_cons
    rw [List.append_assoc, List.append_assoc (gap ++ _)]
    exact ih leftTyped h₁ ⟨_, _, fronts_append hg op.solid_symbol (.inl op.isSign_symbol), .inr ⟨op, rfl⟩⟩
  | call named free =>
    intro u z hu hz
    obtain ⟨gap, u₁, rfl, hg, -, h₁⟩ := hu.of_cons
    obtain ⟨gap', u₂, rfl, hg', -⟩ := h₁.of_cons
    have hopen : Fronts (gap' ++ "(".toList ++ (u₂ ++ z)) "(" (u₂ ++ z) := fronts_append hg' (by decide) (.inl (by decide))
    have hends := Ahead.ends_sign hg' (show "(".toList.head? = some '(' from rfl) (by decide) (u₂ ++ z)
    rw [List.append_assoc (gap ++ _), List.append_assoc _ u₂]
    exact ⟨_, _, fronts_append hg (solid_of_isName named) (.inr hends), .inl ⟨named, free⟩,
      .inr ⟨named, free, .inl ⟨_, hopen⟩⟩⟩
  | parenthesised =>
    intro u z hu hz
    obtain ⟨gap, text, rfl, hg, -⟩ := hu.of_cons
    rw [List.append_assoc]
    exact ⟨_, _, fronts_append hg (by decide) (.inl (by decide)), .inr (.inr (by decide)), .inl rfl⟩

/-- The sign `=` is found at the front of `==`, and leaves the other half. -/
theorem reads_half_equal (ctx : Context) {p : Place} {tail : List Char} (h : Fronts p.rest "==" tail) :
    ∃ token q, Reads ctx Grammar.assignment (accept ctx [.assign] .postAssign) .preAssign p (some token) .postAssign q ∧
      Fronts q.rest "=" tail := by
  have hfinds : Finds ctx.rules Grammar.assignment .preAssign p _ := finds_text p (by decide) (by decide)
  rw [h.ahead?_eq (by decide)] at hfinds
  have hrest : p.skip.rest = "=".toList ++ ("=".toList ++ tail) := by rw [p.rest_skip, h.front]; rfl
  have hq := (Place.spans_drop hrest).rest_eq hrest
  refine ⟨_, p.skip.drop 1, .accept hfinds rfl, ?_⟩
  rw [show p.skip.drop 1 = p.skip.drop "=".toList.length from rfl, hq]
  exact fronts_append (w := "=") (List.forall_mem_nil _) (by decide) (.inl (by decide))

/-- An expression is no assignment, even if `==` follows a variable at its front: what stands behind
    `=` must be an expression too. -/
theorem Rule.declines_assignment_of_expression {scope : Scope} {e : Expr} {ws : List String} {u z : List Char} {p : Place}
    (h : e.Spelled BinaryOp.loosest ws) (ht : e.Typed scope) (hu : Joined ws u) (hz : Ending z) (hp : p.Shows (u ++ z)) :
    assignment.DeclinesAt scope p := by
  obtain ⟨w, tail, hfront, -, hno | ⟨named, free, hmore⟩⟩ := h.fronts ht hu hz
  · exact declines_assignment (hp.fronts hfront) hno
  rw [DeclinesAt, read_eq_body]
  apply wrap_declines
  obtain ⟨position, q, ha, rfl⟩ := Reads.front scope.context Grammar.assignment .begin [.name] .preAssign (hp.fronts hfront)
    (by decide) (by decide) (find?_target named free) rfl
  refine (ha.expect.bind_declines ?_).run
  have hother {v : String} {vs : List Char} (hq : Fronts q.rest v vs)
      (hv : Matcher.find? v (Grammar.assignment.matchers .preAssign) = none) :
      Reads scope.context Grammar.assignment (accept scope.context [.assign] .postAssign) .preAssign q none .preAssign q :=
    .other_front hq (by decide) (by decide) (by rw [hv]; rfl)
  rcases hmore with ⟨args, hq⟩ | ⟨⟨target, found⟩, v, vs, hq, hv | ⟨op, rfl⟩⟩
  · exact (Declines.expect (hother hq rfl)).bind
  · simp only [List.mem_cons, List.not_mem_nil, or_false] at hv
    rcases hv with rfl | rfl | rfl <;> exact (Declines.expect (hother hq rfl)).bind
  rcases op with op | op
  · cases op with
    | eq =>
      obtain ⟨token, q₁, hsign, hq₁⟩ := reads_half_equal scope.context hq
      refine hsign.expect.bind_declines ((Reads.resolveVariable found).bind_declines ?_)
      have hdeclines : expression.DeclinesAt scope q₁.skip :=
        declines_expression ((Place.shows_of_rest rfl).skip.fronts hq₁) rfl
      have hmisses : ∀ form ∈ Grammar.assignment.matchers .postAssign, form.Misses (read scope) q₁ q₁.skip :=
        fun form hform => by cases List.mem_singleton.mp hform; exact hdeclines.misses
      have hvalue : Reads scope.context Grammar.assignment (accept scope.context [.expression] .postExpr) .postAssign q₁ none
          .postAssign q₁ := .accept_none (finds_none (by decide) hmisses) rfl
      exact (Declines.expectExpression hvalue).bind
    | _ => exact (Declines.expect (hother hq rfl)).bind
  · cases op <;> exact (Declines.expect (hother hq rfl)).bind

end HostScript
