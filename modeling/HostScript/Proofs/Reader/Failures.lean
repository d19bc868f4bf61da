import HostScript.Compile
import HostScript.Proofs.Reader.Errors
import HostScript.Proofs.Scoping
import HostScript.Proofs.Stream.Positions

/-! Why compilation fails, and where.

A definitive error ends the read where it is found, and is one of names or types. Any other makes the
statements end too early: those before are derived from their text, which is a program of its own as far
as it goes, and no statement is read behind them. -/

namespace HostScript

open TokenStream Reader

/-! ### Where no statement is read -/

/-- Statements are read from `p` to `q`, and no other where the text goes on behind blanks. -/
structure StuckAt (scope : Scope) (p q : Place) : Prop where
  reads : ∃ parts : List (Stmt × String), (∀ part ∈ parts, part.1.Derived scope part.2) ∧ p.Words (parts.map Prod.snd) q
  more : q.skip.rest ≠ []
  fails : ∃ cause, Rule.read scope .statement (.ofPlace q.skip) = .error (.error cause)

namespace Reader

open Grammar (ProgramState)

theorem run_eq_failed {S α : Type} {x : Reader S α} {g : Grammar S} {cursor : Cursor} {reason : Stop}
    (h : x.run g cursor = .error reason) : ∃ s', x (.ofCursor g cursor) = .error reason s' := by
  unfold run at h
  split at h
  next => cases h
  next s' hx =>
    cases h
    exact ⟨s', hx⟩

variable {scope : Scope} {p : Place} {cause : CompileError}

/-- A rule that is left out where nothing else is tried cannot be read there. -/
theorem fails_of_not_found {S : Type} [DecidableEq S] {g : Grammar S} {state : S} {rule : Rule}
    (hm : g.matchers state = [.rule rule]) (hstate : state ≠ g.stop)
    (h : ∀ token q, ¬Finds scope.context.rules g state p (some (token, q))) :
    ∃ cause, Rule.read scope rule (.ofPlace p.skip) = .error (.error cause) := by
  cases hread : Rule.read scope rule (.ofPlace p.skip) with
  | ok result =>
    obtain ⟨payload, behind⟩ := result
    obtain ⟨q, rfl, hderives⟩ := Rule.derives_read rule p.skip payload behind hread
    obtain ⟨text, position, hfinds⟩ := finds_nested g state [] hm hstate (List.forall_mem_nil _) hread hderives.reaches
    exact absurd hfinds (h _ q)
  | error reason =>
    have hfound := (Rule.arrives_read scope rule p.skip).error hread
    cases reason with
    | error cause => exact ⟨cause, rfl⟩
    | split | exhausted => exact hfound.elim

/-- Where a statement is expected in a program, its error is definitive or there is none. -/
theorem expectStatement_eq_failed {s s' : TokenStream ProgramState}
    (hs : Stands scope.context.rules Grammar.program .body p s) (hp : p.skip = p)
    (h : expectStatement scope.context [.statement] .body s = .error (.error cause) s') :
    (∃ position, cause.SemanticAt position) ∨ (∃ diagnostic, cause = .unrecognizedStatement p.position diagnostic) ∧
      ∃ cause', Rule.read scope .statement (.ofPlace p) = .error (.error cause') := by
  have hctx := Rule.regular_context scope
  rcases EStateM.error_of_bind h with ha | ⟨found, s₁, ha, hf⟩
  · obtain ⟨rule, -, hread, hdefinitive⟩ := accept_eq_failed hs ha
    exact .inl ((hctx.ordinary rule _ _ hread).semanticAt hdefinitive)
  rcases accept_cases hs ha with ⟨token, q, rfl, hk, hfinds, -⟩ | ⟨rfl, hs₁, hno⟩
  · have hfits := hfinds.fits (Construct.fitting .program) hctx.derives
    rw [List.mem_singleton.mp hk] at hfits
    obtain ⟨t, ht⟩ := Option.isSome_iff_exists.mp hfits
    simp only [ht] at hf
    cases hf
  · rcases accept_eq_ok ha with ⟨_, _, hsome, -⟩ | ⟨-, seen, hpeek, -⟩
    · cases hsome
    obtain ⟨diagnostic, herror⟩ := s₁.statementError_eq [.statement]
    have hcause : cause = s₁.statementError [.statement] := by
      cases hf
      rfl
    have hnone : ∀ token q, ¬Finds scope.context.rules Grammar.program .body p (some (token, q)) := by
      intro token q hfinds
      obtain ⟨form, hmem, hkind, -⟩ := hfinds.form
      cases List.mem_singleton.mp hmem
      exact hno token q hfinds (hkind ▸ List.mem_cons_self)
    have hfails := fails_of_not_found rfl (by decide) hnone
    rw [hp] at hfails
    rw [hs.position_eq hpeek hp] at herror
    exact .inr ⟨⟨diagnostic, hcause.trans herror⟩, hfails⟩

/-- The statements of a program end with a definitive error or where no other is read. -/
theorem programBody_eq_failed : ∀ {n : Nat} {p : Place} {s s' : TokenStream ProgramState},
    Stands scope.context.rules Grammar.program .body p s → programBody scope.context n s = .error (.error cause) s' →
      (∃ position, cause.SemanticAt position) ∨
        ∃ q diagnostic, cause = .unrecognizedStatement q.skip.position diagnostic ∧ StuckAt scope p q
  | 0, _, _, _, _, h => by cases h
  | n + 1, p, s, s', hs, h => by
    rcases EStateM.error_of_bind h with hend | ⟨ended, s₁, hend, h⟩
    · obtain ⟨_, hok, -⟩ := Reads.atEnd_skip scope.context Grammar.program .body p s hs
      rw [hok] at hend
      cases hend
    obtain ⟨rfl, hs₁⟩ := (Reads.atEnd_skip scope.context Grammar.program .body p).eq hs hend
    cases hempty : p.skip.rest.isEmpty with
    | true =>
      rw [hempty] at h
      cases h
    | false =>
      rw [hempty] at h
      have hmore : p.skip.rest ≠ [] := List.isEmpty_eq_false_iff.mp hempty
      rcases EStateM.error_of_bind h with hfirst | ⟨first, s₂, hfirst, h⟩
      · rcases expectStatement_eq_failed hs₁ p.skip_skip hfirst with hsemantic | ⟨⟨diagnostic, rfl⟩, hfails⟩
        · exact .inl hsemantic
        · exact .inr ⟨p, diagnostic, rfl, ⟨[], List.forall_mem_nil _, .nil p⟩, hmore, hfails⟩
      obtain ⟨u, q₁, hu, hderived, -, rfl⟩ := expectStatement_derives Rule.derives_read hs₁ (by decide) hfirst
      rcases EStateM.error_of_bind h with hrest | ⟨_, _, -, h⟩
      · rcases programBody_eq_failed (stands_fresh ..) hrest with hsemantic | ⟨q, diagnostic, rfl, hstuck⟩
        · exact .inl hsemantic
        · obtain ⟨parts, derived, hwords⟩ := hstuck.reads
          refine .inr ⟨q, diagnostic, rfl, ⟨(first, u) :: parts, ?_, ?_⟩, hstuck.more, hstuck.fails⟩
          · exact List.forall_mem_cons.mpr ⟨hderived, derived⟩
          · exact (Place.Words.of_skip hu.words).append_ended hwords hderived.ended
      · cases h

/-- The declaration of a program fails with a definitive error only. -/
theorem programLocals_eq_failed
    (h : (programLocals scope.context).run Grammar.program (.ofPlace p) = .error (.error cause)) :
    ∃ position, cause.SemanticAt position := by
  have hctx := Rule.regular_context scope
  have hs := stands_fresh scope.context.rules Grammar.program .begin p
  obtain ⟨s', hrun⟩ := run_eq_failed h
  rcases EStateM.error_of_bind hrun with ha | ⟨found, s₁, ha, hf⟩
  · obtain ⟨rule, -, hread, hdefinitive⟩ := accept_eq_failed hs ha
    exact (hctx.ordinary rule _ _ hread).semanticAt hdefinitive
  cases found with
  | none => cases hf
  | some token =>
    obtain ⟨rule, hrule, q, hderives, -, -, rfl⟩ := accept_rule hctx.derives hs ha [.declaration] (by decide)
    cases List.mem_singleton.mp hrule
    obtain ⟨listed, hpayload, -⟩ := hderives
    simp only [hpayload] at hf
    cases hf

end Reader

/-! ### Whole programs -/

/-- The errors with which a text is no program: no statement returns for certain, a name or a type is
    wrong somewhere in it, or from a position on it is cut off from what is a program before. There the
    text goes on with no blank and with no statement. -/
inductive Program.FailsWith (scope : Scope) (text : String) : CompileError → Prop
  | unreturned : FailsWith scope text .unreachableReturn
  | semantic {cause : CompileError} {position : Position} (found : cause.SemanticAt position)
      (meets : (Place.start text.toList).Meets position) : FailsWith scope text cause
  | stuck {front back : List Char} {c : Char} {position : Position} {locals : List String} {behind : Cursor}
      {cause : CompileError} (diagnostic : String) (cut : text.toList = front ++ c :: back) (solid : isBlank c = false)
      (placed : position = Position.start.afterAll front) (offset : position.offset = (String.ofList front).utf8ByteSize)
      (inside : position.offset < text.utf8ByteSize)
      (before : (∃ p scope', Program.read scope (String.ofList front) = .ok (p, scope')) ∨
        Program.read scope (String.ofList front) = .error (.error .unreachableReturn))
      (declared : (programLocals scope.context).run Grammar.program (.ofString text) = .ok (locals, behind))
      (fails : Rule.read (scope.declareAll locals) .statement (.ofPlace ⟨position, c :: back⟩) = .error (.error cause)) :
      FailsWith scope text (.unrecognizedStatement position diagnostic)

namespace Program

variable {scope : Scope} {text : String}

/-- The position behind a part of a text that is not all of it. -/
theorem offset_of_cut {front back : List Char} {c : Char} (h : text.toList = front ++ c :: back) :
    (Position.start.afterAll front).offset = (String.ofList front).utf8ByteSize ∧
      (Position.start.afterAll front).offset < text.utf8ByteSize := by
  have hoffset : (Position.start.afterAll front).offset = (String.ofList front).utf8ByteSize := by
    rw [Place.offset_afterAll, Place.bytes_eq]
    exact Nat.zero_add _
  have htext : text = String.ofList front ++ String.ofList (c :: back) := by
    rw [← String.ofList_append, ← h, String.ofList_toList]
  refine ⟨hoffset, ?_⟩
  rw [hoffset, htext, String.utf8ByteSize_append, String.ofList_cons, String.utf8ByteSize_append,
    String.utf8ByteSize_singleton]
  have := c.utf8Size_pos
  omega

/-- Statements that are read up to where no other is are all of a program before that place. -/
theorem failsWith_of_stuckAt {listed : List String} {behind : Cursor} {q q' : Place} (diagnostic : String)
    (hlocals : (programLocals scope.context).run Grammar.program (.ofString text) = .ok (listed.eraseDups, behind))
    (hnames : ∀ name ∈ listed, isName name ∧ isKeyword name = false)
    (hdeclaration : (Place.start text.toList).Words (declarationWords listed) q)
    (hstuck : StuckAt (scope.declareAll listed.eraseDups) q q') :
    FailsWith scope text (.unrecognizedStatement q'.skip.position diagnostic) := by
  obtain ⟨parts, derived, hwords⟩ := hstuck.reads
  obtain ⟨front, hfront, hjoined⟩ := hdeclaration.append hwords fun _ _ _ hu _ => parted_declarationWords hu
  obtain ⟨c, back, hrest⟩ := List.exists_cons_of_ne_nil hstuck.more
  obtain ⟨cause, hfails⟩ := hstuck.fails
  have hspans := hfront.trans q'.spans_skip
  have hcut : text.toList = (front ++ q'.rest.takeWhile isBlank) ++ c :: back := hrest ▸ hspans.rest
  have hplace : q'.skip = ⟨q'.skip.position, c :: back⟩ := by rw [← hrest]
  have hderived : Program.Derived scope ⟨listed.eraseDups, parts.map Prod.fst⟩
      (String.ofList (front ++ q'.rest.takeWhile isBlank)) :=
    .mk hnames derived hjoined isBlank_of_mem_takeWhile String.toList_ofList
  have hposition : q'.skip.position = Position.start.afterAll (front ++ q'.rest.takeWhile isBlank) := hspans.position
  obtain ⟨hoffset, hinside⟩ := offset_of_cut hcut
  rw [← hposition] at hoffset hinside
  refine .stuck diagnostic hcut (q'.head_skip c (by rw [hrest]; rfl)) hposition hoffset hinside ?_ hlocals (hplace ▸ hfails)
  rw [hderived.read]
  split
  · exact .inl ⟨_, _, rfl⟩
  · exact .inr rfl

/-- A text that is no program fails with one of these errors. -/
theorem failsWith_of_read {reason : Stop} (h : read scope text = .error reason) :
    ∃ cause, reason = .error cause ∧ FailsWith scope text cause := by
  have hfound := foundFrom_of_read h
  cases reason with
  | split | exhausted => exact hfound.elim
  | error cause =>
  refine ⟨cause, rfl, ?_⟩
  have hsemantic : (∃ position, cause.SemanticAt position) → FailsWith scope text cause := by
    rintro ⟨position, hposition⟩
    exact .semantic hposition (hfound position hposition.position?_eq)
  rcases Except.error_of_bind h with hrun | ⟨⟨locals, cursor⟩, hlocals, h⟩
  · exact hsemantic (programLocals_eq_failed hrun)
  obtain ⟨listed, q, rfl, rfl, hdeclaration, hnames⟩ := derives_programLocals Rule.derives_read hlocals
  rcases Except.error_of_bind h with hrun | ⟨⟨body, behind⟩, -, h⟩
  · obtain ⟨s', hrun⟩ := run_eq_failed hrun
    rcases EStateM.error_of_bind hrun with hset | ⟨_, s, hset, hrun⟩
    · cases hset
    obtain ⟨-, hs⟩ := (Reads.setState Grammar.ProgramState.body).eq (stands_fresh _ Grammar.program .begin q) hset
    rcases programBody_eq_failed hs hrun with hfailed | ⟨q', diagnostic, rfl, hstuck⟩
    · exact hsemantic hfailed
    · exact failsWith_of_stuckAt diagnostic hlocals hnames hdeclaration hstuck
  · dsimp only at h
    split at h
    next => cases h
    next =>
      cases h
      exact .unreturned

end Program

/-- Compiling for an entry point of integers fails only with an error that tells why and where the text is
    no program. Wherever a rule is read, it fails only with a token or a statement that does not come, or
    with a wrong name or type: no token carries anything else than its kind promises, and none is
    expected where the grammar has no form of it. -/
theorem failures_located (text : String) (signature : Signature) (host : HostScope) (reason : Stop)
    (result : signature.result = .integer) (params : ∀ param ∈ signature.params, param.ty = .integer)
    (h : compile text signature host = .error reason) :
    (∃ cause, reason = .error cause ∧ Program.FailsWith (.bind signature host) text cause) ∧
      ∀ scope rule p cause, Rule.read scope rule (.ofPlace p) = .error (.error cause) → cause.Ordinary := by
  refine ⟨?_, fun scope rule p cause hread => (Rule.regular_context scope).ordinary rule p cause hread⟩
  unfold compile at h
  rw [Signature.validate_of_integer result params] at h
  dsimp only at h
  split at h
  next hread =>
    cases h
    exact Program.failsWith_of_read hread
  next => cases h

/-- Where a result is missing for want of a statement. -/
def statementMissing? {α : Type} : Except Stop α → Option Position
  | .error (.error (.unrecognizedStatement position _)) => some position
  | _ => none

theorem eq_error_of_statementMissing? {α : Type} {r : Except Stop α} {position : Position}
    (h : statementMissing? r = some position) :
    ∃ diagnostic, r = .error (.error (.unrecognizedStatement position diagnostic)) := by
  unfold statementMissing? at h
  split at h
  · cases h
    exact ⟨_, rfl⟩
  · cases h

/-- Behind a program that returns, an `if` is cut off at its condition. -/
theorem failures_located_cut : ∃ diagnostic,
    compile "var a; a = x;\nreturn a; if (x > " ⟨[⟨"x", .integer⟩], .integer⟩ {} =
      .error (.error (.unrecognizedStatement ⟨24, 2, 11⟩ diagnostic)) ∧
    Program.FailsWith (.bind ⟨[⟨"x", .integer⟩], .integer⟩ {}) "var a; a = x;\nreturn a; if (x > "
      (.unrecognizedStatement ⟨24, 2, 11⟩ diagnostic) := by
  have hmissing : statementMissing? (compile "var a; a = x;\nreturn a; if (x > " ⟨[⟨"x", .integer⟩], .integer⟩ {}) =
      some ⟨24, 2, 11⟩ := by decide +kernel
  obtain ⟨diagnostic, h⟩ := eq_error_of_statementMissing? hmissing
  obtain ⟨⟨cause, hcause, hfails⟩, -⟩ := failures_located _ _ _ _ rfl (by simp) h
  cases hcause
  exact ⟨diagnostic, h, hfails⟩

end HostScript
