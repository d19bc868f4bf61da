import HostScript.Proofs.Reader.Standing

/-! Tokens that stand in a text without blanks between them.

A text is joined from words if they follow one another, with or without blanks before them. What a
reader consumes is told by the text between two places (`Spans`), and what it found there by the form
that matched. -/

namespace HostScript

/-! ### Texts between places -/

namespace Place

/-- The text leads from one place to another. -/
structure Spans (p : Place) (text : List Char) (q : Place) : Prop where
  rest : p.rest = text ++ q.rest
  position : q.position = p.position.afterAll text

variable {p q r : Place} {u v : List Char}

theorem Spans.refl (p : Place) : p.Spans [] p := ⟨rfl, rfl⟩

theorem Spans.trans (h₁ : p.Spans u q) (h₂ : q.Spans v r) : p.Spans (u ++ v) r where
  rest := by rw [h₁.rest, h₂.rest, List.append_assoc]
  position := by
    rw [h₂.position, h₁.position, Position.afterAll, Position.afterAll, Position.afterAll, List.foldl_append]

theorem Spans.reaches (h : p.Spans u q) : p.Reaches q := ⟨u, h.rest, h.position⟩

theorem Spans.text_eq (h : p.Spans u q) (h' : p.Spans v q) : u = v := List.append_cancel_right (h.rest.symm.trans h'.rest)

theorem Spans.rest_eq (h : p.Spans u q) (hp : p.rest = u ++ v) : q.rest = v :=
  List.append_cancel_left (h.rest.symm.trans hp)

theorem spans_drop (h : p.rest = u ++ v) : p.Spans u (p.drop u.length) where
  rest := by rw [h, Place.drop, h, List.drop_left]
  position := by rw [Place.drop, h, List.take_left]

theorem Spans.unique (h : p.Spans u q) (h' : p.Spans u r) : q = r := by
  have hrest : q.rest = r.rest := h.rest_eq h'.rest
  have hposition : q.position = r.position := h.position.trans h'.position.symm
  obtain ⟨position, rest⟩ := q
  cases hrest
  cases hposition
  rfl

theorem Spans.split (h : p.Spans (u ++ v) r) : ∃ q, p.Spans u q ∧ q.Spans v r := by
  have hp : p.rest = u ++ (v ++ r.rest) := by rw [h.rest, List.append_assoc]
  have hq := spans_drop hp
  have hv := spans_drop (hq.rest_eq hp)
  rw [← (hq.trans hv).unique h]
  exact ⟨_, hq, hv⟩

theorem Spans.of_append (h : p.Spans u q) (h' : p.Spans (u ++ v) r) : q.Spans v r := by
  obtain ⟨q', hq', hv⟩ := h'.split
  rwa [h.unique hq']

/-- The place behind the blanks. -/
def skip (p : Place) : Place := p.drop (p.rest.takeWhile isBlank).length

theorem rest_skip (p : Place) : p.skip.rest = p.rest.dropWhile isBlank := by
  have h : p.rest = p.rest.takeWhile isBlank ++ p.rest.dropWhile isBlank := List.takeWhile_append_dropWhile.symm
  have hskip := (spans_drop h).rest
  rw [← skip] at hskip
  exact List.append_cancel_left (hskip.symm.trans h)

theorem spans_skip (p : Place) : p.Spans (p.rest.takeWhile isBlank) p.skip :=
  spans_drop List.takeWhile_append_dropWhile.symm

theorem head_skip (p : Place) : ∀ c ∈ p.skip.rest.head?, isBlank c = false := by
  intro c hc
  have hstop := List.head?_dropWhile_not isBlank p.rest
  rw [p.rest_skip] at hc
  rw [Option.mem_def.mp hc] at hstop
  simpa using hstop

theorem skip_skip (p : Place) : p.skip.skip = p.skip := by
  have hnone : p.skip.rest.takeWhile isBlank = [] := by
    cases h : p.skip.rest with
    | nil => rfl
    | cons c rest => simp [p.head_skip c (by rw [h]; rfl)]
  rw [skip, hnone]
  rfl

end Place

/-- The place behind the blanks is that of the word. -/
theorem Place.spans_skip_word {p : Place} {gap tail : List Char} {w : String} (hp : p.rest = gap ++ w.toList ++ tail)
    (hg : ∀ c ∈ gap, isBlank c) (hw : Solid w) : p.Spans gap p.skip := by
  have hhead : ∀ c ∈ (w.toList ++ tail).head?, isBlank c = false := by
    obtain ⟨c, cs, hl⟩ := List.exists_cons_of_ne_nil hw.1
    intro d hd
    rw [hl] at hd
    cases hd
    exact hw.2 c (hl ▸ List.mem_cons_self)
  rw [List.append_assoc] at hp
  have hskip : p.skip = p.drop gap.length := congrArg Cursor.peeked (skipBlanks_eq hp hg hhead)
  rw [hskip]
  exact spans_drop hp

theorem isBlank_of_mem_takeWhile {text : List Char} : ∀ c ∈ text.takeWhile isBlank, isBlank c :=
  fun _ hc => List.all_eq_true.mp List.all_takeWhile _ hc

/-! ### Joined words -/

/-- The end of one text and the start of another do not run together into one word. -/
def Parted (front back : List Char) : Prop :=
  ∀ c ∈ front.getLast?, ∀ d ∈ back.head?, isNameChar c → isNameChar d = false

namespace Parted

variable {u u' v v' : List Char}

theorem of_head (h : ∀ d ∈ v.head?, isNameChar d = false) : Parted u v := fun _ _ d hd _ => h d hd

theorem of_last (h : ∀ c ∈ u.getLast?, isNameChar c = false) : Parted u v := fun c hc _ _ hn => by
  rw [h c hc] at hn
  cases hn

theorem of_append_left (h : Parted (u ++ u') v) : Parted u' v := by
  intro c hc d hd
  refine h c ?_ d hd
  rw [List.getLast?_append]
  simp only [Option.mem_def] at hc ⊢
  simp [hc]

theorem of_append_right (h : Parted u (v ++ v')) : Parted u v := by
  intro c hc d hd
  refine h c hc d ?_
  rw [List.head?_append]
  simp only [Option.mem_def] at hd ⊢
  simp [hd]

theorem append_left (h : Parted u' v) (h' : u' = [] → Parted u v) : Parted (u ++ u') v := by
  cases u' with
  | nil =>
    rw [List.append_nil]
    exact h' rfl
  | cons c u' =>
    intro d hd
    rw [List.getLast?_append, List.getLast?_eq_some_getLast (List.cons_ne_nil c u')] at hd
    exact h d (List.getLast?_eq_some_getLast (List.cons_ne_nil c u') ▸ hd)

/-- Blanks before a word do not matter. -/
theorem gap {gap : List Char} (h : Parted u v) (hg : ∀ c ∈ gap, isBlank c) : Parted (gap ++ u) v :=
  h.append_left fun _ => .of_last fun c hc =>
    not_isNameChar_of_not_isWordChar (not_isWordChar_of_isBlank (hg c (List.mem_of_getLast? hc)))

theorem append_right (h : Parted u v) (h' : v = [] → Parted u v') : Parted u (v ++ v') := by
  cases v with
  | nil => exact h' rfl
  | cons d v => exact h

end Parted

/-- A text that is words behind one another, with blanks before them where they would run together. -/
inductive Joined : List String → List Char → Prop
  | nil : Joined [] []
  | cons {gap text : List Char} {w : String} {ws : List String} (blank : ∀ c ∈ gap, isBlank c)
      (parted : Parted w.toList text) (rest : Joined ws text) : Joined (w :: ws) (gap ++ w.toList ++ text)

namespace Joined

variable {ws vs : List String} {u v : List Char}

theorem word {gap : List Char} (blank : ∀ c ∈ gap, isBlank c) (w : String) : Joined [w] (gap ++ w.toList) := by
  have h : Joined [w] (gap ++ w.toList ++ []) := .cons blank (.of_head (by simp)) .nil
  rwa [List.append_nil] at h

theorem of_cons {w : String} (h : Joined (w :: ws) u) :
    ∃ gap text, u = gap ++ w.toList ++ text ∧ (∀ c ∈ gap, isBlank c) ∧ Parted w.toList text ∧ Joined ws text := by
  cases h with
  | cons blank parted rest => exact ⟨_, _, rfl, blank, parted, rest⟩

theorem of_singleton {w : String} (h : Joined [w] u) : ∃ gap, u = gap ++ w.toList ∧ ∀ c ∈ gap, isBlank c := by
  obtain ⟨gap, text, rfl, hg, -, hnil⟩ := h.of_cons
  cases hnil
  exact ⟨gap, by rw [List.append_nil], hg⟩

theorem blank {w : String} {gap : List Char} (hg : ∀ c ∈ gap, isBlank c) (h : Joined (w :: ws) u) :
    Joined (w :: ws) (gap ++ u) := by
  obtain ⟨gap', text, rfl, hg', hparted, hrest⟩ := h.of_cons
  rw [← List.append_assoc, ← List.append_assoc]
  exact .cons (List.forall_mem_append.mpr ⟨hg, hg'⟩) hparted hrest

theorem append (h₁ : Joined ws u) (h₂ : Joined vs v) (hp : Parted u v) : Joined (ws ++ vs) (u ++ v) := by
  induction h₁ with
  | nil => exact h₂
  | @cons gap text w ws blank parted rest ih =>
    rw [List.append_assoc, List.cons_append]
    refine .cons blank (parted.append_right fun ht => ?_) (ih hp.of_append_left)
    rw [ht, List.append_nil] at hp
    exact hp.of_append_left

/-- Words split where they do not run together. -/
theorem split_parted : ∀ {ws : List String} {u : List Char}, Joined (ws ++ vs) u →
    ∃ u₁ u₂, u = u₁ ++ u₂ ∧ Joined ws u₁ ∧ Joined vs u₂ ∧ Parted u₁ u₂
  | [], u, h => ⟨[], u, rfl, .nil, h, .of_last (by simp)⟩
  | w :: ws, _, .cons blank parted rest => by
    obtain ⟨u₁, u₂, rfl, h₁, h₂, hparted⟩ := split_parted rest
    refine ⟨_, u₂, (List.append_assoc ..).symm, .cons blank parted.of_append_right h₁, h₂, ?_⟩
    exact hparted.append_left fun hnil => (hnil ▸ parted).gap blank

theorem split (h : Joined (ws ++ vs) u) : ∃ u₁ u₂, u = u₁ ++ u₂ ∧ Joined ws u₁ ∧ Joined vs u₂ := by
  obtain ⟨u₁, u₂, hu, h₁, h₂, -⟩ := h.split_parted
  exact ⟨u₁, u₂, hu, h₁, h₂⟩

/-- Words that follow one another are a piece of their own. -/
theorem group (xs ys : List String) (h : Joined (xs ++ (ws ++ ys)) u) :
    ∃ v, Joined ws v ∧ Joined (xs ++ String.ofList v :: ys) u := by
  induction xs generalizing u with
  | nil =>
    rw [List.nil_append] at h
    obtain ⟨u₁, u₂, rfl, h₁, h₂, hparted⟩ := h.split_parted
    have hpiece : Joined (String.ofList u₁ :: ys) ([] ++ (String.ofList u₁).toList ++ u₂) :=
      .cons (List.forall_mem_nil _) (by rwa [String.toList_ofList]) h₂
    rw [String.toList_ofList] at hpiece
    exact ⟨u₁, h₁, hpiece⟩
  | cons x xs ih =>
    obtain ⟨gap, text, rfl, hg, hparted, hrest⟩ := h.of_cons
    obtain ⟨v, hv, hjoined⟩ := ih hrest
    exact ⟨v, hv, .cons hg hparted hjoined⟩

/-- There are no more words than characters. -/
theorem length_le (h : Joined ws u) (hne : ∀ w ∈ ws, w.toList ≠ []) : ws.length ≤ u.length := by
  induction h with
  | nil => exact Nat.le_refl 0
  | @cons gap text w ws _ _ _ ih =>
    have hw : 0 < w.toList.length := List.length_pos_iff.mpr (hne w List.mem_cons_self)
    have := ih fun v hv => hne v (List.mem_cons_of_mem w hv)
    simp only [List.length_cons, List.length_append]
    omega

theorem ne_nil (h : Joined ws u) {w : String} (hmem : w ∈ ws) (hw : w.toList ≠ []) : u ≠ [] := by
  induction h with
  | nil => cases hmem
  | cons _ _ _ ih =>
    rcases List.mem_cons.mp hmem with rfl | hmem
    · simp [hw]
    · simp [ih hmem]

end Joined

/-- The words lead from one place to another. -/
def Place.Words (p : Place) (ws : List String) (q : Place) : Prop := ∃ u, p.Spans u q ∧ Joined ws u

/-- A word of characters that are in no name. -/
def isSign (w : String) : Bool := !w.toList.isEmpty && w.toList.all (!isNameChar ·)

/-- The last character of the word is in no name. -/
def Ended (w : String) : Prop := ∃ c, w.toList.getLast? = some c ∧ isNameChar c = false

theorem ended_of_isSign {w : String} (h : isSign w) : Ended w := by
  simp only [isSign, Bool.and_eq_true, Bool.not_eq_true', List.isEmpty_eq_false_iff, List.all_eq_true] at h
  exact ⟨_, List.getLast?_eq_some_getLast h.1, h.2 _ (List.getLast_mem h.1)⟩

theorem head_of_isSign {w : String} (h : isSign w) : ∃ c cs, w.toList = c :: cs ∧ isNameChar c = false := by
  simp only [isSign, Bool.and_eq_true, Bool.not_eq_true', List.isEmpty_eq_false_iff, List.all_eq_true] at h
  obtain ⟨c, cs, hl⟩ := List.exists_cons_of_ne_nil h.1
  exact ⟨c, cs, hl, h.2 c (hl ▸ List.mem_cons_self)⟩

/-- With blanks before it or not, a sign goes on with no name. -/
theorem head_gap_of_isSign {gap : List Char} {w : String} (hg : ∀ c ∈ gap, isBlank c) (hw : isSign w) (text : List Char) :
    ∀ d ∈ (gap ++ w.toList ++ text).head?, isNameChar d = false := by
  intro d hd
  cases gap with
  | nil =>
    obtain ⟨c, cs, hl, hc⟩ := head_of_isSign hw
    rw [hl] at hd
    cases hd
    exact hc
  | cons b gap =>
    cases hd
    exact not_isNameChar_of_not_isWordChar (not_isWordChar_of_isBlank (hg _ List.mem_cons_self))

theorem Joined.getLast? {w : String} {ws : List String} {u : List Char} {c : Char} (h : Joined (ws ++ [w]) u)
    (hc : w.toList.getLast? = some c) : u.getLast? = some c := by
  obtain ⟨u₁, u₂, rfl, -, h₂⟩ := h.split
  obtain ⟨gap, rfl, -⟩ := h₂.of_singleton
  rw [List.getLast?_append, List.getLast?_append, hc]
  rfl

namespace Place.Words

variable {p q r : Place} {w : String} {ws vs : List String}

theorem nil (p : Place) : p.Words [] p := ⟨[], .refl p, .nil⟩

theorem word {gap : List Char} (hg : ∀ c ∈ gap, isBlank c) (w : String) (h : p.Spans (gap ++ w.toList) q) :
    p.Words [w] q := ⟨_, h, .word hg w⟩

theorem reaches (h : p.Words ws q) : p.Reaches q := by
  obtain ⟨u, hu, -⟩ := h
  exact hu.reaches

theorem spans_skip (h : p.Words [w] q) (hw : Solid w) : p.skip.Spans w.toList q := by
  obtain ⟨u, hu, hjoined⟩ := h
  obtain ⟨gap, rfl, hg⟩ := hjoined.of_singleton
  exact (spans_skip_word hu.rest hg hw).of_append hu

theorem append (h₁ : p.Words ws q) (h₂ : q.Words vs r)
    (hp : ∀ u v, q.Spans v r → Joined ws u → Joined vs v → Parted u v) : p.Words (ws ++ vs) r := by
  obtain ⟨u, hu, hws⟩ := h₁
  obtain ⟨v, hv, hvs⟩ := h₂
  exact ⟨u ++ v, hu.trans hv, hws.append hvs (hp u v hv hws hvs)⟩

/-- A sign runs together with no word before it. -/
theorem append_sign (h₁ : p.Words ws q) (h₂ : q.Words (w :: vs) r) (hw : isSign w) : p.Words (ws ++ w :: vs) r := by
  refine h₁.append h₂ fun u v _ _ hv => .of_head ?_
  obtain ⟨gap, text, rfl, hg, -⟩ := hv.of_cons
  exact head_gap_of_isSign hg hw text

/-- Nor does a word that ends like a sign with one behind it. -/
theorem append_ended (h₁ : p.Words [w] q) (h₂ : q.Words vs r) (hw : Ended w) : p.Words (w :: vs) r := by
  refine h₁.append h₂ fun u v _ (hu : Joined ([] ++ [w]) u) _ => .of_last fun c hc => ?_
  obtain ⟨d, hlast, hd⟩ := hw
  rw [hu.getLast? hlast] at hc
  cases hc
  exact hd

/-- A keyword is matched only where it does not run on. -/
theorem keyword_append (h₁ : p.Words [w] q) (h₂ : q.Words vs r) (hends : ∀ c ∈ q.rest.head?, isWordChar c = false) :
    p.Words (w :: vs) r := by
  refine h₁.append h₂ fun u v hv _ _ => .of_head fun d hd => not_isNameChar_of_not_isWordChar (hends d ?_)
  rw [hv.rest, List.head?_append]
  simp only [Option.mem_def] at hd ⊢
  simp [hd]

/-- Blanks before the first word. -/
theorem of_skip (h : p.skip.Words (w :: ws) q) : p.Words (w :: ws) q := by
  obtain ⟨u, hu, hjoined⟩ := h
  exact ⟨_, p.spans_skip.trans hu, hjoined.blank isBlank_of_mem_takeWhile⟩

/-- The text between two places is a word of its own. -/
theorem of_spans {u : List Char} (h : p.Spans u q) : p.Words [String.ofList u] q :=
  ⟨u, h, by simpa using Joined.word (List.forall_mem_nil _) (String.ofList u)⟩

end Place.Words

/-! ### What the forms of a state find -/

variable {S : Type}

/-- The word that the state allows at the front of a text, behind blanks. -/
def Grammar.ahead? (g : Grammar S) (state : S) (text : List Char) : Option (TokenKind × List Char × Payload) :=
  Matcher.find? (String.ofList (text.dropWhile isBlank)) (g.matchers state)

theorem Grammar.ahead?_gap {g : Grammar S} {state : S} {gap : List Char} (hg : ∀ c ∈ gap, isBlank c)
    (text : List Char) : g.ahead? state (gap ++ text) = g.ahead? state text := by
  rw [ahead?, List.dropWhile_append_of_pos hg, ahead?]

theorem Grammar.ahead?_word {g : Grammar S} {state : S} {gap tail : List Char} {w : String} (hg : ∀ c ∈ gap, isBlank c)
    (hw : Solid w) : g.ahead? state (gap ++ w.toList ++ tail) =
      Matcher.find? (String.ofList (w.toList ++ tail)) (g.matchers state) := by
  obtain ⟨c, cs, hl⟩ := List.exists_cons_of_ne_nil hw.1
  have hc : isBlank c = false := hw.2 c (hl ▸ List.mem_cons_self)
  rw [List.append_assoc, ahead?_gap hg, ahead?, hl, List.cons_append, List.dropWhile_cons, hc]
  rfl

namespace TokenStream

variable [DecidableEq S] {rules : RuleReader} {g : Grammar S} {state : S} {p q : Place} {s s₁ : TokenStream S}

/-- In a state that allows words only, the text tells what is found. -/
theorem finds_text (p : Place) (hstate : state ≠ g.stop) (hl : ∀ form ∈ g.matchers state, form.lexical) :
    Finds rules g state p ((g.ahead? state p.rest).map fun (kind, text, payload) =>
      (⟨kind, String.ofList text, p.skip.position, payload⟩, p.skip.drop text.length)) := by
  obtain ⟨failures, hs⟩ : ∃ failures, Matcher.scan rules ⟨p, p.skip⟩ (g.matchers state) = (_, failures) :=
    Matcher.scan_lexical hl
  apply finds_of_scan hstate rfl
  rw [Grammar.ahead?, ← p.rest_skip, Option.map_map]
  exact hs

theorem Finds.unique {found found' : Option (Token × Place)} (h : Finds rules g state p found)
    (h' : Finds rules g state p found') : found = found' := by
  rcases found with _ | ⟨token, q⟩ <;> rcases found' with _ | ⟨token', q'⟩
  · rfl
  · obtain ⟨_, _, hp⟩ := h
    obtain ⟨_, hp'⟩ := h'
    rw [hp] at hp'
    cases hp'
  · obtain ⟨_, hp⟩ := h
    obtain ⟨_, _, hp'⟩ := h'
    rw [hp] at hp'
    cases hp'
  · obtain ⟨_, hp⟩ := h
    obtain ⟨_, hp'⟩ := h'
    rw [hp] at hp'
    cases hp'
    rfl

end TokenStream

namespace Terminal

theorem attempt_eq_token {form : Terminal} {p start : Place} {token : Token} {behind : Cursor}
    (h : form.attempt ⟨p, start⟩ = .token token behind) :
    ∃ w payload, form.pattern.match? start.rest = some w ∧ form.read w = .ok payload ∧
      token = ⟨form.kind, String.ofList w, start.position, payload⟩ ∧ behind = ⟨p, start.drop w.length⟩ := by
  unfold attempt at h
  split at h
  · cases h
  next w hmatch =>
    split at h
    · cases h
    next payload hread =>
      cases h
      exact ⟨w, payload, hmatch, hread, rfl, rfl⟩

end Terminal

namespace Rule

theorem attempt_eq_token {form : Rule} {rules : RuleReader} {p start : Place} {token : Token} {behind : Cursor}
    (h : form.attempt rules ⟨p, start⟩ = .token token behind) :
    ∃ payload inner text q, rules form (.ofPlace start) = .ok (payload, inner) ∧
      start.cut? (inner.committed.position.offset - start.position.offset) = some (text, q) ∧
      token = ⟨form.kind, String.ofList text, start.position, payload⟩ ∧ behind = ⟨p, q⟩ := by
  have hfork : Cursor.fork ⟨p, start⟩ = .ofPlace start := rfl
  unfold attempt at h
  rw [hfork] at h
  split at h
  next payload inner hread =>
    cases hcut : start.cut? (inner.committed.position.offset - start.position.offset) with
    | none =>
      simp only [Cursor.cut?, hcut, Option.map_none] at h
      cases h
    | some found =>
      obtain ⟨text, q⟩ := found
      simp only [Cursor.cut?, hcut, Option.map_some] at h
      cases h
      exact ⟨payload, inner, text, q, hread, hcut, rfl, rfl⟩
  · split at h <;> cases h
  · cases h

end Rule

namespace Matcher

variable {rules : RuleReader} {p start : Place} {token : Token} {behind : Cursor}

/-- A form leaves the committed place as it is, and its token is of its kind. -/
theorem attempt_eq_token {form : Matcher} (h : form.attempt rules ⟨p, start⟩ = .token token behind) :
    behind.committed = p ∧ token.kind = form.kind := by
  cases form with
  | terminal form =>
    obtain ⟨_, _, -, -, rfl, rfl⟩ := Terminal.attempt_eq_token h
    exact ⟨rfl, rfl⟩
  | rule form =>
    obtain ⟨_, _, _, _, -, -, rfl, rfl⟩ := Rule.attempt_eq_token h
    exact ⟨rfl, rfl⟩

/-- What is found is the token of one of the forms. -/
theorem scan_eq_some : ∀ {forms : List Matcher} {failures : List Failure},
    scan rules ⟨p, start⟩ forms = (.ok (some (token, behind)), failures) →
      ∃ form ∈ forms, form.attempt rules ⟨p, start⟩ = .token token behind
  | form :: forms, failures, h => by
    unfold scan at h
    split at h
    next ha =>
      cases h
      exact ⟨form, List.mem_cons_self, ha⟩
    next => cases h
    next =>
      cases hs : scan rules ⟨p, start⟩ forms with
      | mk found failures =>
        rw [hs] at h
        cases h
        obtain ⟨other, hmem, ha⟩ := scan_eq_some hs
        exact ⟨other, List.mem_cons_of_mem form hmem, ha⟩

/-- The same for a text of words. -/
theorem find?_eq_some {w : String} {kind : TokenKind} {text : List Char} {payload : Payload} :
    ∀ {forms : List Matcher}, find? w forms = some (kind, text, payload) →
      ∃ form, .terminal form ∈ forms ∧ form.kind = kind ∧ form.pattern.match? w.toList = some text ∧
        form.read text = .ok payload
  | terminal form :: forms, h => by
    have hforms : find? w forms = some (kind, text, payload) → ∃ other, .terminal other ∈ terminal form :: forms ∧
        other.kind = kind ∧ other.pattern.match? w.toList = some text ∧ other.read text = .ok payload := by
      intro h
      obtain ⟨other, hmem, hother⟩ := find?_eq_some h
      exact ⟨other, List.mem_cons_of_mem _ hmem, hother⟩
    unfold find? at h
    split at h
    next found hf =>
      cases h
      unfold Terminal.find? at hf
      split at hf
      · cases hf
      next hmatch =>
        split at hf
        next hread =>
          cases hf
          exact ⟨form, List.mem_cons_self, rfl, hmatch, hread⟩
        · cases hf
    next => exact hforms h
  | rule form :: forms, h => by
    have h : find? w forms = some (kind, text, payload) := h
    obtain ⟨other, hmem, hother⟩ := find?_eq_some h
    exact ⟨other, List.mem_cons_of_mem _ hmem, hother⟩

/-- What is found at a word is what is found in it, if all forms stop behind it. -/
theorem find?_append {w : String} {tail : List Char} (hw : w.toList = [] → tail = []) : ∀ {forms : List Matcher},
    (∀ form, .terminal form ∈ forms → ∀ c ∈ tail.head?, form.pattern.stops c) →
      find? (String.ofList (w.toList ++ tail)) forms = find? w forms
  | [], _ => rfl
  | terminal form :: forms, h => by
    have hform : form.find? (String.ofList (w.toList ++ tail)) = form.find? w := by
      simp only [Terminal.find?, String.toList_ofList, Pattern.match?_append hw (h form List.mem_cons_self)]
    simp only [find?, hform, find?_append hw fun other ho => h other (List.mem_cons_of_mem _ ho)]
  | rule form :: forms, h => by
    change find? _ forms = find? w forms
    exact find?_append hw fun other ho => h other (List.mem_cons_of_mem _ ho)

end Matcher

namespace TokenStream

variable [DecidableEq S] {rules : RuleReader} {g : Grammar S} {state : S} {p q : Place} {s s₁ : TokenStream S}

/-- A peek that ends well finds what the forms of the state find, or nothing. -/
theorem finds_of_peek {seen : Option Token} (h : (fresh g state p).peek rules = (.ok seen, s₁)) :
    ∃ found, Finds rules g state p found ∧ seen = found.map Prod.fst ∧ ∀ token q, found = some (token, q) →
      ∃ failures, Matcher.scan rules ⟨p, p.skip⟩ (g.matchers state) = (.ok (some (token, ⟨p, q⟩)), failures) := by
  have hskip : (Cursor.ofPlace p).revert.skipBlanks = ⟨p, p.skip⟩ := rfl
  have hp := h
  simp only [peek, fresh, hskip] at h
  by_cases hstate : state = g.stop
  · rw [if_pos hstate] at h
    cases h
    exact ⟨none, ⟨_, _, hp⟩, rfl, by simp⟩
  rw [if_neg hstate] at h
  rcases hscan : Matcher.scan rules ⟨p, p.skip⟩ (g.matchers state) with ⟨reason | (_ | ⟨token, behind⟩), failures⟩
  · rw [hscan] at h
    cases h
  · rw [hscan] at h
    cases h
    exact ⟨none, finds_of_scan hstate rfl hscan, rfl, by simp⟩
  · rw [hscan] at h
    cases h
    obtain ⟨form, -, ha⟩ := Matcher.scan_eq_some hscan
    obtain ⟨committed, peeked⟩ := behind
    cases (Matcher.attempt_eq_token ha).1
    refine ⟨some (token, peeked), finds_of_scan hstate rfl hscan, rfl, fun _ _ h => ?_⟩
    cases h
    exact ⟨failures, rfl⟩

theorem Stands.finds (hs : Stands rules g state p s) {seen : Option Token} (h : s.peek rules = (.ok seen, s₁)) :
    ∃ found, Finds rules g state p found ∧ seen = found.map Prod.fst ∧ Stands rules g state p s₁ := by
  rw [hs.peek] at h
  obtain ⟨found, hf, hseen, -⟩ := finds_of_peek h
  obtain ⟨s₂, hp, hs₂⟩ := hs.of_peek hf
  rw [hs.peek, h] at hp
  cases hp
  exact ⟨found, hf, hseen, hs₂⟩

/-- The form that gave what was found. -/
theorem Finds.form {token : Token} (h : Finds rules g state p (some (token, q))) :
    ∃ form ∈ g.matchers state, form.kind = token.kind ∧ form.attempt rules ⟨p, p.skip⟩ = .token token ⟨p, q⟩ := by
  obtain ⟨_, hp⟩ := id h
  obtain ⟨found, hf, -, hscan⟩ := finds_of_peek hp
  obtain ⟨_, hscan⟩ := hscan token q (hf.unique h)
  obtain ⟨form, hmem, ha⟩ := Matcher.scan_eq_some hscan
  exact ⟨form, hmem, (Matcher.attempt_eq_token ha).2.symm, ha⟩

end TokenStream

open TokenStream

/-- The form takes the word `w` of the text before `q` and makes the token of it. -/
structure Terminal.Consumes (form : Terminal) (w : List Char) (token : Token) (q : Place) : Prop where
  matched : form.pattern.match? (w ++ q.rest) = some w
  read : form.read w = .ok token.payload
  text : token.text = String.ofList w

namespace Pattern

theorem isName_of_match? : ∀ {text w : List Char}, name.match? text = some w → isName (String.ofList w)
  | c :: text, w, h => by
    simp only [match?] at h
    split at h
    next hc =>
      cases h
      simp [isName, hc]
    next => cases h

theorem isNumber_of_match? {text w : List Char} (h : number.match? text = some w) : isNumber (String.ofList w) := by
  simp only [match?] at h
  split at h
  next => cases h
  next hne =>
    cases h
    simp only [isNumber, String.toList_ofList, List.all_takeWhile, Bool.and_true, Bool.not_eq_true']
    simpa using hne

/-- A keyword does not run on. -/
theorem eq_of_match?_keyword {k : String} {w tail : List Char} (h : (keyword k).match? (w ++ tail) = some w) :
    w = k.toList ∧ ∀ c ∈ tail.head?, isWordChar c = false := by
  simp only [match?] at h
  split at h
  next hp =>
    cases h
    rw [Bool.and_eq_true, ← String.length_toList, List.drop_left] at hp
    refine ⟨rfl, fun c hc => ?_⟩
    rw [Option.mem_def.mp hc] at hp
    simpa using hp.2
  next => cases h

theorem eq_of_match?_sign {s : String} {text w : List Char} (h : (sign s).match? text = some w) : w = s.toList := by
  simp only [match?] at h
  split at h <;> cases h
  rfl

/-- What is matched is at the front of the text. -/
theorem append_of_match? : ∀ {pattern : Pattern} {text w : List Char}, pattern.match? text = some w →
    ∃ tail, text = w ++ tail
  | sign s, text, w, h => by
    simp only [match?] at h
    split at h
    next hp =>
      cases h
      obtain ⟨tail, rfl⟩ := List.isPrefixOf_iff_prefix.mp hp
      exact ⟨tail, rfl⟩
    next => cases h
  | keyword k, text, w, h => by
    simp only [match?] at h
    split at h
    next hp =>
      cases h
      obtain ⟨tail, rfl⟩ := List.isPrefixOf_iff_prefix.mp ((Bool.and_eq_true _ _).mp hp).1
      exact ⟨tail, rfl⟩
    next => cases h
  | name, c :: text, w, h => by
    simp only [match?] at h
    split at h
    next =>
      cases h
      exact ⟨text.dropWhile isNameChar, by rw [List.cons_append, List.takeWhile_append_dropWhile]⟩
    next => cases h
  | number, text, w, h => by
    simp only [match?] at h
    split at h
    next => cases h
    next =>
      cases h
      exact ⟨text.dropWhile Char.isDigit, List.takeWhile_append_dropWhile.symm⟩

end Pattern

theorem Terminal.consumes_of_attempt {form : Terminal} {p q : Place} {token : Token}
    (h : form.attempt ⟨p, p.skip⟩ = .token token ⟨p, q⟩) :
    ∃ w, form.Consumes w token q := by
  obtain ⟨w, payload, hmatch, hread, rfl, hbehind⟩ := attempt_eq_token h
  cases hbehind
  obtain ⟨tail, htail⟩ := Pattern.append_of_match? hmatch
  refine ⟨w, ?_, hread, rfl⟩
  rw [← (Place.spans_drop htail).rest]
  exact hmatch

namespace Reader

variable [DecidableEq S] {ctx : Context} {g : Grammar S} {state next : S} {p : Place} {s s' : TokenStream S}
  {kinds : List TokenKind} {token : Token}

/-! ### Words that are ahead -/

/-- A look at the text in a state that allows words only. -/
theorem Reads.peek_text (ctx : Context) (p : Place) (hstate : state ≠ g.stop)
    (hl : ∀ form ∈ g.matchers state, form.lexical) :
    Reads ctx g (Reader.peek ctx) state p ((g.ahead? state p.rest).map fun (kind, text, payload) =>
      ⟨kind, String.ofList text, p.skip.position, payload⟩) state p := by
  have hpeek : Reads ctx g (Reader.peek ctx) state p _ state p := .peek (finds_text p hstate hl)
  rw [Option.map_map] at hpeek
  exact hpeek

/-- The next word is a token of one of the kinds. -/
theorem Reads.joined_word (ctx : Context) (g : Grammar S) (state : S) (kinds : List TokenKind) (next : S)
    {gap tail : List Char} {w : String} {kind : TokenKind} {payload : Payload} (hp : p.rest = gap ++ w.toList ++ tail)
    (hg : ∀ c ∈ gap, isBlank c) (hw : Solid w) (hstate : state ≠ g.stop) (hl : ∀ form ∈ g.matchers state, form.lexical)
    (hf : Matcher.find? (String.ofList (w.toList ++ tail)) (g.matchers state) = some (kind, w.toList, payload))
    (hk : kinds.contains kind) :
    ∃ position q, Reads ctx g (Reader.accept ctx kinds next) state p (some ⟨kind, w, position, payload⟩) next q ∧
      p.Spans (gap ++ w.toList) q := by
  have hfinds : Finds ctx.rules g state p _ := finds_text p hstate hl
  rw [hp, Grammar.ahead?_word hg hw, hf, Option.map_some] at hfinds
  simp only [String.ofList_toList] at hfinds
  refine ⟨p.skip.position, p.skip.drop w.toList.length, .accept hfinds hk, ?_⟩
  have hgap := Place.spans_skip_word hp hg hw
  rw [List.append_assoc] at hp
  exact hgap.trans (Place.spans_drop (hgap.rest_eq hp))

/-- What is ahead is no token of the kinds. -/
theorem Reads.none_ahead (hstate : state ≠ g.stop) (hl : ∀ form ∈ g.matchers state, form.lexical)
    (hf : (g.ahead? state p.rest).any (kinds.contains ·.1) = false) :
    Reads ctx g (Reader.accept ctx kinds next) state p none state p := by
  refine .accept_none (finds_text p hstate hl) ?_
  rw [Option.any_map]
  exact hf

/-- Blanks are skipped before the end is asked for. -/
theorem Reads.atEnd_skip (ctx : Context) (g : Grammar S) (state : S) (p : Place) :
    Reads ctx g Reader.atEnd state p p.skip.rest.isEmpty state p.skip := by
  intro s hs
  have hend : s.atEnd = (p.skip.rest.isEmpty, fresh g state p.skip) := by
    rw [TokenStream.atEnd, hs.revert]
    rfl
  refine ⟨fresh g state p.skip, ?_, stands_fresh ..⟩
  change EStateM.Result.ok s.atEnd.1 s.atEnd.2 = _
  rw [hend]

/-- What a reader gives from where it stands is all it can give. -/
theorem Reads.eq {α : Type} {x : Reader S α} {a b : α} {state₁ : S} {p₁ : Place}
    (h : Reads ctx g x state p a state₁ p₁) (hs : Stands ctx.rules g state p s) (hx : x s = .ok b s') :
    b = a ∧ Stands ctx.rules g state₁ p₁ s' := by
  obtain ⟨s₁, hx₁, hs₁⟩ := h s hs
  rw [hx] at hx₁
  cases hx₁
  exact ⟨rfl, hs₁⟩

end Reader
end HostScript
