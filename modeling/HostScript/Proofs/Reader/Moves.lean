import HostScript.Proofs.Results
import HostScript.Reader.Basic

/-! What the moves of a reader do when they give a result. -/

namespace HostScript

namespace TokenStream

variable {S : Type} {s s' : TokenStream S}

theorem commit_of_lookahead {token : Token} (h : s.lookahead = some (some token)) : s.commit.1 = some token := by
  simp [commit, h]

variable [DecidableEq S] {read : RuleReader}

/-- The outcome of a peek is kept. -/
theorem lookahead_of_peek {found : Option Token} (h : s.peek read = (.ok found, s')) :
    s'.lookahead = some found := by
  unfold peek at h
  split at h
  next hl =>
    cases h
    exact hl
  next hl =>
    dsimp only at h
    split at h
    · cases h
      rfl
    · split at h <;> cases h <;> rfl

end TokenStream

namespace Reader

variable {S α β : Type}

theorem locate_eq_ok {position : Position} {r : Except SemanticError α} {s s' : TokenStream S} {a : α}
    (h : locate position r s = .ok a s') : r = .ok a ∧ s' = s := by
  cases r with
  | ok b =>
    cases h
    exact ⟨rfl, rfl⟩
  | error e => cases h

variable {ctx : Context} {s s' : TokenStream S}

theorem resolveVariable_eq_ok {name : Token} {target : Variable} (h : resolveVariable ctx name s = .ok target s') :
    ctx.scope.variableNamed? name.text = some target ∧ s' = s := by
  unfold resolveVariable Scope.resolveVariable at h
  cases hv : ctx.scope.variableNamed? name.text with
  | none =>
    simp only [hv] at h
    cases h
  | some target =>
    simp only [hv] at h
    cases h
    exact ⟨rfl, rfl⟩

theorem resolveFunction_eq_ok {name : Token} {function : HostFunction}
    (h : resolveFunction ctx name s = .ok function s') :
    ctx.scope.functionNamed? name.text = some function ∧ s' = s := by
  unfold resolveFunction Scope.resolveFunction at h
  cases hv : ctx.scope.functionNamed? name.text with
  | none =>
    simp only [hv] at h
    cases h
  | some function =>
    simp only [hv] at h
    cases h
    exact ⟨rfl, rfl⟩

/-- A whole rule is read from the start of its grammar. -/
theorem run_eq_ok {r : Reader S α} {grammar : Grammar S} {cursor behind : Cursor} {a : α}
    (h : r.run grammar cursor = .ok (a, behind)) :
    ∃ s', r (.ofCursor grammar cursor) = .ok a s' ∧ behind = s'.release := by
  unfold run at h
  split at h
  next s' heq =>
    cases h
    exact ⟨s', heq, rfl⟩
  next => cases h

variable [DecidableEq S] {kinds : List TokenKind} {next : S}

theorem peek_eq_ok {found : Option Token} (h : peek ctx s = .ok found s') :
    s.peek ctx.rules = (.ok found, s') := by
  unfold peek at h
  split at h
  next heq =>
    cases h
    exact heq
  next => cases h

theorem test_eq_ok {b : Bool} (h : test ctx kinds s = .ok b s') :
    ∃ found, s.peek ctx.rules = (.ok found, s') ∧ b = found.any (kinds.contains ·.kind) := by
  obtain ⟨found, s₁, hp, h⟩ := EStateM.ok_of_bind h
  have hp := peek_eq_ok hp
  cases found with
  | none =>
    cases h
    exact ⟨none, hp, rfl⟩
  | some token =>
    cases h
    exact ⟨some token, hp, rfl⟩

/-- The next token is consumed, or it is of none of the kinds and stays. -/
theorem accept_eq_ok {found : Option Token} (h : accept ctx kinds next s = .ok found s') :
    (∃ token s₁, found = some token ∧ s.peek ctx.rules = (.ok (some token), s₁) ∧ token.kind ∈ kinds ∧
      s' = s₁.commit.2.setState next) ∨
    (found = none ∧ ∃ seen, s.peek ctx.rules = (.ok seen, s') ∧ ∀ token ∈ seen, token.kind ∉ kinds) := by
  obtain ⟨b, s₁, ht, h⟩ := EStateM.ok_of_bind h
  obtain ⟨seen, hp, rfl⟩ := test_eq_ok ht
  split at h
  next hb =>
    obtain ⟨token, rfl, hk⟩ : ∃ token, seen = some token ∧ token.kind ∈ kinds := by
      simpa [Option.any_eq_true] using hb
    obtain ⟨committed, s₂, hc, h⟩ := EStateM.ok_of_bind h
    obtain ⟨_, s₃, hs, h⟩ := EStateM.ok_of_bind h
    cases h
    cases hs
    cases hc
    have hl := TokenStream.lookahead_of_peek hp
    exact Or.inl ⟨token, s₁, TokenStream.commit_of_lookahead hl, hp, hk, rfl⟩
  next hb =>
    cases h
    refine Or.inr ⟨rfl, seen, hp, fun token ht hk => hb ?_⟩
    cases ht
    simpa using hk

theorem expect_eq_ok {token : Token} (h : expect ctx kinds next s = .ok token s') :
    accept ctx kinds next s = .ok (some token) s' := by
  obtain ⟨found, s₁, ha, h⟩ := EStateM.ok_of_bind h
  cases found with
  | none =>
    obtain ⟨_, _, -, h⟩ := EStateM.ok_of_bind h
    cases h
  | some token =>
    cases h
    exact ha

theorem expectExpression_eq_ok {e : Expr} {position : Position}
    (h : expectExpression ctx next s = .ok (e, position) s') :
    ∃ token, accept ctx [.expression] next s = .ok (some token) s' ∧ token.payload = .expr e := by
  obtain ⟨token, s₁, he, h⟩ := EStateM.ok_of_bind h
  refine ⟨token, ?_⟩
  cases hp : token.payload with
  | expr tree =>
    simp only [hp, Payload.expr?] at h
    cases h
    exact ⟨expect_eq_ok he, rfl⟩
  | _ =>
    simp only [hp, Payload.expr?] at h
    cases h

theorem expectStatement_eq_ok {t : Stmt} (h : expectStatement ctx kinds next s = .ok t s') :
    ∃ token, accept ctx kinds next s = .ok (some token) s' ∧ token.payload = .stmt t := by
  obtain ⟨found, s₁, ha, h⟩ := EStateM.ok_of_bind h
  cases found with
  | none =>
    obtain ⟨_, _, -, h⟩ := EStateM.ok_of_bind h
    cases h
  | some token =>
    refine ⟨token, ?_⟩
    cases hp : token.payload with
    | stmt tree =>
      simp only [hp, Payload.stmt?] at h
      cases h
      exact ⟨ha, rfl⟩
    | _ =>
      simp only [hp, Payload.stmt?] at h
      cases h

end Reader
end HostScript
