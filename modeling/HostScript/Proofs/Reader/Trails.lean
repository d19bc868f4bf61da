import HostScript.Proofs.Reader.Tokens

/-! Trails of tokens.

What a reader consumes is a trail: each token is one that the grammar finds, in some state, at the place
where the token before it ended. The words that a reader passes are the texts of the tokens of a trail. -/

namespace HostScript

/-! ### Tokens and their text -/

theorem cutBytes_eq_some : ∀ {n : Nat} {text front back : List Char}, cutBytes n text = some (front, back) →
    text = front ++ back
  | 0, text, front, back, h => by
    simp only [cutBytes] at h
    cases h
    rfl
  | n + 1, [], front, back, h => by
    cases h
    rfl
  | n + 1, c :: text, front, back, h => by
    unfold cutBytes at h
    split at h
    · obtain ⟨⟨front', back'⟩, hcut, heq⟩ := Option.map_eq_some_iff.mp h
      cases heq
      rw [cutBytes_eq_some hcut, List.cons_append]
    · cases h

theorem Place.spans_of_cut? {p q : Place} {n : Nat} {text : List Char} (h : p.cut? n = some (text, q)) :
    p.Spans text q := by
  obtain ⟨⟨front, back⟩, hcut, heq⟩ := Option.map_eq_some_iff.mp h
  cases heq
  exact ⟨cutBytes_eq_some hcut, rfl⟩

/-- A token starts where the form was tried, and its text leads to the place behind it. -/
theorem Matcher.spans_of_attempt {form : Matcher} {read : RuleReader} {p start : Place} {token : Token} {behind : Cursor}
    (h : form.attempt read ⟨p, start⟩ = .token token behind) :
    token.position = start.position ∧ ∃ q, behind = ⟨p, q⟩ ∧ start.Spans token.text.toList q := by
  cases form with
  | terminal form =>
    obtain ⟨w, payload, hmatch, -, rfl, rfl⟩ := Terminal.attempt_eq_token h
    obtain ⟨tail, htail⟩ := Pattern.append_of_match? hmatch
    refine ⟨rfl, _, rfl, ?_⟩
    rw [String.toList_ofList]
    exact Place.spans_drop htail
  | rule form =>
    obtain ⟨payload, inner, text, q, -, hcut, rfl, rfl⟩ := Rule.attempt_eq_token h
    refine ⟨rfl, q, rfl, ?_⟩
    rw [String.toList_ofList]
    exact Place.spans_of_cut? hcut

/-! ### Trails -/

variable {S : Type} [DecidableEq S]

namespace TokenStream

variable {rules : RuleReader} {g : Grammar S} {p q r : Place}

/-- The tokens lead from one place to another, each found by the grammar in some state of it. -/
inductive Trail (rules : RuleReader) (g : Grammar S) : Place → List Token → Place → Prop
  | nil (p : Place) : Trail rules g p [] p
  | cons {p q r : Place} {state : S} {token : Token} {tokens : List Token}
      (found : Finds rules g state p (some (token, q))) (rest : Trail rules g q tokens r) :
      Trail rules g p (token :: tokens) r

theorem Trail.append {tokens tokens' : List Token} (h : Trail rules g p tokens q) (h' : Trail rules g q tokens' r) :
    Trail rules g p (tokens ++ tokens') r := by
  induction h with
  | nil => exact h'
  | cons found _ ih => exact .cons found (ih h')

theorem Finds.spans {state : S} {token : Token} (h : Finds rules g state p (some (token, q))) :
    p.skip.Spans token.text.toList q := by
  obtain ⟨form, -, -, ha⟩ := h.form
  obtain ⟨-, _, hq, hspans⟩ := Matcher.spans_of_attempt ha
  cases hq
  exact hspans

/-- The words between two places are the texts of the tokens of a trail. -/
structure Passes (rules : RuleReader) (g : Grammar S) (p : Place) (ws : List String) (q : Place) : Prop where
  words : p.Words ws q
  trail : ∃ tokens, Trail rules g p tokens q ∧ tokens.map (·.text) = ws

theorem Finds.passes {state : S} {token : Token} (h : Finds rules g state p (some (token, q))) :
    Passes rules g p [token.text] q where
  words := by
    have hwords : p.Words [String.ofList token.text.toList] q := .of_skip (.of_spans h.spans)
    rwa [String.ofList_toList] at hwords
  trail := ⟨[token], .cons h (.nil q), rfl⟩

namespace Passes

variable {w : String} {ws vs : List String}

theorem reaches (h : Passes rules g p ws q) : p.Reaches q := h.words.reaches

theorem trail_append (h₁ : Passes rules g p ws q) (h₂ : Passes rules g q vs r) :
    ∃ tokens, Trail rules g p tokens r ∧ tokens.map (·.text) = ws ++ vs := by
  obtain ⟨tokens, htrail, rfl⟩ := h₁.trail
  obtain ⟨tokens', htrail', rfl⟩ := h₂.trail
  exact ⟨tokens ++ tokens', htrail.append htrail', List.map_append⟩

theorem append_sign (h₁ : Passes rules g p ws q) (h₂ : Passes rules g q (w :: vs) r) (hw : isSign w) :
    Passes rules g p (ws ++ w :: vs) r :=
  ⟨h₁.words.append_sign h₂.words hw, h₁.trail_append h₂⟩

theorem append_ended (h₁ : Passes rules g p [w] q) (h₂ : Passes rules g q vs r) (hw : Ended w) :
    Passes rules g p (w :: vs) r :=
  ⟨h₁.words.append_ended h₂.words hw, h₁.trail_append h₂⟩

theorem sign_append (h₁ : Passes rules g p [w] q) (h₂ : Passes rules g q vs r) (hw : isSign w) :
    Passes rules g p (w :: vs) r :=
  h₁.append_ended h₂ (ended_of_isSign hw)

theorem keyword_append (h₁ : Passes rules g p [w] q) (h₂ : Passes rules g q vs r)
    (hends : ∀ c ∈ q.rest.head?, isWordChar c = false) : Passes rules g p (w :: vs) r :=
  ⟨h₁.words.keyword_append h₂.words hends, h₁.trail_append h₂⟩

end Passes
end TokenStream

open TokenStream

namespace Reader

variable {ctx : Context} {g : Grammar S} {state next : S} {p : Place} {s s' : TokenStream S} {kinds : List TokenKind}
  {token : Token}

/-! ### Tokens that were consumed -/

/-- From where the stream stands the next token is consumed, or it is of none of the kinds. -/
theorem accept_cases (hs : Stands ctx.rules g state p s) {found : Option Token}
    (h : accept ctx kinds next s = .ok found s') :
    (∃ token q, found = some token ∧ token.kind ∈ kinds ∧ Finds ctx.rules g state p (some (token, q)) ∧
      s' = fresh g next q) ∨
    (found = none ∧ Stands ctx.rules g state p s' ∧
      ∀ token q, Finds ctx.rules g state p (some (token, q)) → token.kind ∉ kinds) := by
  rcases accept_eq_ok h with ⟨token, s₁, rfl, hp, hk, rfl⟩ | ⟨rfl, seen, hp, hk⟩
  · obtain ⟨found, hf, hseen, -⟩ := hs.finds hp
    obtain ⟨⟨token, q⟩, rfl, rfl⟩ := Option.map_eq_some_iff.mp hseen.symm
    obtain ⟨s₂, hp₂, -, hnext⟩ := hs.of_commit hf next
    rw [hp] at hp₂
    cases hp₂
    exact .inl ⟨token, q, rfl, hk, hf, hnext⟩
  · obtain ⟨found, hf, rfl, hs'⟩ := hs.finds hp
    refine .inr ⟨rfl, hs', fun token q hfinds => hk token ?_⟩
    cases hf.unique hfinds
    rfl

theorem accept_some (hs : Stands ctx.rules g state p s) (h : accept ctx kinds next s = .ok (some token) s') :
    ∃ q form, form ∈ g.matchers state ∧ form.kind = token.kind ∧ token.kind ∈ kinds ∧
      form.attempt ctx.rules ⟨p, p.skip⟩ = .token token ⟨p, q⟩ ∧ Passes ctx.rules g p [token.text] q ∧
      s' = fresh g next q := by
  rcases accept_cases hs h with ⟨_, q, hsome, hk, hf, hs'⟩ | ⟨hnone, -⟩
  · cases hsome
    obtain ⟨form, hmem, hkind, ha⟩ := hf.form
    exact ⟨q, form, hmem, hkind, hk, ha, hf.passes, hs'⟩
  · cases hnone

/-- In a state that allows words only. -/
theorem accept_lexical (hs : Stands ctx.rules g state p s) (h : accept ctx kinds next s = .ok (some token) s')
    (hl : ∀ form ∈ g.matchers state, form.lexical) :
    ∃ (form : Terminal) (w : List Char) (q : Place), form.Consumes w token q ∧
      Passes ctx.rules g p [token.text] q ∧ s' = fresh g next q := by
  obtain ⟨q, form, hmem, -, -, ha, hpasses, hs'⟩ := accept_some hs h
  cases form with
  | rule form => cases hl _ hmem
  | terminal form =>
    obtain ⟨w, hw⟩ := Terminal.consumes_of_attempt ha
    exact ⟨form, w, q, hw, hpasses, hs'⟩

/-- The only form of the kinds is a word. -/
theorem accept_word (hs : Stands ctx.rules g state p s) (h : accept ctx kinds next s = .ok (some token) s')
    {word : Terminal} (hm : ∀ form ∈ g.matchers state, form.kind ∈ kinds → form = .terminal word) :
    ∃ w q, word.Consumes w token q ∧ Passes ctx.rules g p [token.text] q ∧ s' = fresh g next q := by
  obtain ⟨q, form, hmem, hkind, hk, ha, hpasses, hs'⟩ := accept_some hs h
  cases hm form hmem (hkind ▸ hk)
  obtain ⟨w, hw⟩ := Terminal.consumes_of_attempt ha
  exact ⟨w, q, hw, hpasses, hs'⟩

/-- A sign was consumed. -/
theorem accept_sign {kind : TokenKind} (hs : Stands ctx.rules g state p s)
    (h : accept ctx [kind] next s = .ok (some token) s') (w : String)
    (hm : ∀ form ∈ g.matchers state, form.kind ∈ [kind] → form = .terminal (.sign kind w)) :
    ∃ q, Passes ctx.rules g p [w] q ∧ s' = fresh g next q := by
  obtain ⟨_, q, hw, hpasses, hs'⟩ := accept_word hs h hm
  cases Pattern.eq_of_match?_sign hw.matched
  rw [hw.text, String.ofList_toList] at hpasses
  exact ⟨q, hpasses, hs'⟩

/-- A keyword was consumed. -/
theorem accept_keyword {kind : TokenKind} (hs : Stands ctx.rules g state p s)
    (h : accept ctx [kind] next s = .ok (some token) s') (k : String)
    (hm : ∀ form ∈ g.matchers state, form.kind ∈ [kind] → form = .terminal (.keyword kind k)) :
    ∃ q, Passes ctx.rules g p [k] q ∧ (∀ c ∈ q.rest.head?, isWordChar c = false) ∧ s' = fresh g next q := by
  obtain ⟨_, q, hw, hpasses, hs'⟩ := accept_word hs h hm
  obtain ⟨rfl, hends⟩ := Pattern.eq_of_match?_keyword hw.matched
  rw [hw.text, String.ofList_toList] at hpasses
  exact ⟨q, hpasses, hends, hs'⟩

/-- Nothing was consumed. -/
theorem accept_none (hs : Stands ctx.rules g state p s) (h : accept ctx kinds next s = .ok none s') :
    Stands ctx.rules g state p s' := by
  rcases accept_cases hs h with ⟨_, _, hsome, -⟩ | ⟨-, hs', -⟩
  · cases hsome
  · exact hs'

end Reader
end HostScript
