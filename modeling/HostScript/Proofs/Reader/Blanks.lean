import HostScript.Compile
import HostScript.Proofs.Reader.Derivations
import HostScript.Proofs.Reader.Parallel
import HostScript.Proofs.Reader.Progress

/-! Blanks only part words.

Two texts that have the same runs of characters between their blanks are read in step. No form of a word
reaches over a blank, so where both reads have the same runs before them a form matches the same text in
both, and the same runs follow it. Positions, and with them the texts of errors, are all that differs: the
trees are the same, and so are the variants of the errors, which alone decide what is tried next. -/

namespace HostScript

open TokenStream Reader

/-! ### Runs -/

/-- The longest runs of characters that are no blanks, in order. -/
def runs (text : List Char) : List (List Char) := (text.splitOnP isBlank).filter (!·.isEmpty)

section
variable {u v word tail : List Char}

theorem runs_blank {c : Char} (hc : isBlank c) (text : List Char) : runs (c :: text) = runs text := by
  rw [runs, List.splitOnP_cons_eq_if_modifyHead, if_pos hc, List.filter_cons_of_neg (by simp), runs]

/-- Blanks in front of a text are in none of its runs. -/
theorem runs_dropWhile (text : List Char) : runs (text.dropWhile isBlank) = runs text := by
  induction text with
  | nil => rfl
  | cons c text ih =>
    cases hc : isBlank c with
    | true => rw [List.dropWhile_cons_of_pos hc, ih, runs_blank hc]
    | false => rw [List.dropWhile_cons_of_neg (by simp [hc])]

theorem splitOnP_word (hw : ∀ c ∈ word, isBlank c = false) : word.splitOnP isBlank = [word] := by
  induction word with
  | nil => exact List.splitOnP_nil
  | cons c word ih =>
    obtain ⟨hc, hword⟩ := List.forall_mem_cons.mp hw
    rw [List.splitOnP_cons_eq_if_modifyHead, hc, if_neg (by simp), ih hword]
    rfl

/-- A word with a blank behind it is a run of its own. -/
theorem runs_word (hw : ∀ c ∈ word, isBlank c = false) (hne : word ≠ []) (ht : Apart tail) :
    runs (word ++ tail) = word :: runs tail := by
  have hfilter : [word].filter (!·.isEmpty) = [word] := List.filter_cons_of_pos (by simpa using hne)
  cases tail with
  | nil => rw [List.append_nil, runs, splitOnP_word hw, hfilter, runs, List.splitOnP_nil]; rfl
  | cons c tail =>
    have hc : isBlank c := ht c rfl
    rw [runs, List.splitOnP_append_cons _ _ hc, splitOnP_word hw, List.filter_append, hfilter, runs_blank hc, runs]
    rfl

/-- What stands behind a part of a word has the same runs if what stands behind the word has. -/
theorem runs_append_congr (hw : ∀ c ∈ word, isBlank c = false) (hu : Apart u) (hv : Apart v) (h : runs u = runs v) :
    runs (word ++ u) = runs (word ++ v) := by
  by_cases hne : word = []
  · rw [hne]
    exact h
  · rw [runs_word hw hne hu, runs_word hw hne hv, h]

/-- A text is a word with a blank behind it. -/
theorem exists_word (text : List Char) :
    ∃ word tail, text = word ++ tail ∧ (∀ c ∈ word, isBlank c = false) ∧ Apart tail := by
  refine ⟨text.takeWhile (!isBlank ·), text.dropWhile (!isBlank ·), List.takeWhile_append_dropWhile.symm, ?_, ?_⟩
  · intro c hc
    simpa using List.all_eq_true.mp List.all_takeWhile c hc
  · intro c hc
    have hstop := List.head?_dropWhile_not (!isBlank ·) text
    rw [Option.mem_def.mp hc] at hstop
    simpa using hstop

theorem eq_nil_of_apart (hu : ∀ c ∈ u.head?, isBlank c = false) (ha : Apart u) : u = [] := by
  cases u with
  | nil => rfl
  | cons c u =>
    have hc := hu c rfl
    rw [ha c rfl] at hc
    cases hc

/-- Two texts with the same runs and no blank in front begin with the same word, and the texts behind it
    have the same runs again. At the end of both the word has no characters. -/
structure SameWord (u v word u' v' : List Char) : Prop where
  left : u = word ++ u'
  right : v = word ++ v'
  solid : ∀ c ∈ word, isBlank c = false
  apart : Apart u'
  apart' : Apart v'
  behind : runs u' = runs v'
  ended : word = [] → u' = [] ∧ v' = []

theorem sameWord_of_runs (h : runs u = runs v) (hu : ∀ c ∈ u.head?, isBlank c = false)
    (hv : ∀ c ∈ v.head?, isBlank c = false) : ∃ word u' v', SameWord u v word u' v' := by
  obtain ⟨word, u', rfl, hw, hu'⟩ := exists_word u
  obtain ⟨word', v', rfl, hw', hv'⟩ := exists_word v
  by_cases hne : word = []
  · subst hne
    cases eq_nil_of_apart hu hu'
    by_cases hne' : word' = []
    · subst hne'
      cases eq_nil_of_apart hv hv'
      exact ⟨[], [], [], rfl, rfl, hw, hu', hv', rfl, fun _ => ⟨rfl, rfl⟩⟩
    · rw [runs_word hw' hne' hv'] at h
      cases h
  · by_cases hne' : word' = []
    · subst hne'
      cases eq_nil_of_apart hv hv'
      rw [runs_word hw hne hu'] at h
      cases h
    · rw [runs_word hw hne hu', runs_word hw' hne' hv'] at h
      obtain ⟨rfl, hruns⟩ := List.cons.inj h
      exact ⟨word, u', v', rfl, rfl, hw, hu', hv', hruns, fun hnil => absurd hnil hne⟩

/-- A form of a word matches the same text in both. -/
theorem SameWord.match? {pattern : Pattern} {u' v' : List Char} (h : SameWord u v word u' v') (hp : pattern.solid) :
    pattern.match? u = pattern.match? word ∧ pattern.match? v = pattern.match? word := by
  rw [h.left, h.right]
  exact ⟨Pattern.match?_append (fun hw => (h.ended hw).1) fun c hc => Pattern.stops_of_isBlank (h.apart c hc) hp,
    Pattern.match?_append (fun hw => (h.ended hw).2) fun c hc => Pattern.stops_of_isBlank (h.apart' c hc) hp⟩

/-- The texts behind a part of the word have the same runs. -/
theorem SameWord.drop {part u' v' : List Char} (h : SameWord u v word u' v') (hp : part <+: word) :
    runs (u.drop part.length) = runs (v.drop part.length) := by
  obtain ⟨more, rfl⟩ := hp
  rw [h.left, h.right, List.append_assoc, List.append_assoc, List.drop_left, List.drop_left]
  exact runs_append_congr (fun c hc => h.solid c (List.mem_append_right _ hc)) h.apart h.apart' h.behind

end

/-! ### Places and tokens -/

/-- The same runs follow two places, which may be of different texts. -/
def Place.Alike (p p' : Place) : Prop := runs p.rest = runs p'.rest

theorem Place.Alike.skip {p p' : Place} (h : p.Alike p') : p.skip.Alike p'.skip := by
  rw [Alike, p.rest_skip, p'.rest_skip, runs_dropWhile, runs_dropWhile]
  exact h

theorem Place.Alike.sameWord {p p' : Place} (h : p.Alike p') :
    ∃ word tail tail', SameWord p.skip.rest p'.skip.rest word tail tail' :=
  sameWord_of_runs h.skip p.head_skip p'.head_skip

/-- The tokens are the same but for their positions. The text of a rule may differ too, in its blanks. -/
structure SameToken (t t' : Token) : Prop where
  kind : t'.kind = t.kind
  payload : t'.payload = t.payload
  text : t.kind = .name → t'.text = t.text

/-- The errors are of one variant. -/
def CompileError.SameVariant (c d : CompileError) : Prop := c.ctorIdx = d.ctorIdx

theorem CompileError.SameVariant.isDefinitive {c d : CompileError} (h : c.SameVariant d) :
    d.isDefinitive = c.isDefinitive := by
  cases c <;> cases d <;> first | rfl | cases h

/-- No fixed text of a word has a blank in it. -/
def Matcher.solid : Matcher → Bool
  | terminal form => form.pattern.solid
  | rule _ => true

/-- No form of the grammar has a blank in a fixed text. -/
def Grammar.Solid {S : Type} (g : Grammar S) : Prop := ∀ state, (g.matchers state).all Matcher.solid

theorem Construct.solid (construct : Construct) : construct.grammar.Solid := by
  intro state
  cases construct with
  | rule rule => cases rule <;> cases state <;> decide
  | program => cases state <;> decide

/-! ### Forms -/

/-- Two reads in step stop with errors of one variant. -/
inductive Stop.SameVariant : Stop → Stop → Prop
  | mk {c d : CompileError} (variant : c.SameVariant d) : SameVariant (.error c) (.error d)

/-- The same tree was read, up to places that are alike. -/
inductive SameTree {α : Type} : α × Cursor → α × Cursor → Prop
  | mk (tree : α) {q q' : Place} (alike : q.Alike q') : SameTree (tree, .ofPlace q) (tree, .ofPlace q')

/-- The rules are read alike from places that are alike. -/
def RuleReader.Alike (rules rules' : RuleReader) : Prop :=
  ∀ rule (p p' : Place), p.Alike p' →
    SideBySide Stop.SameVariant SameTree (rules rule (.ofPlace p)) (rules' rule (.ofPlace p'))

/-- The same token was found by cursors committed to `p` and to `p'`, up to places that are alike. -/
inductive SameFound (p p' : Place) : Token × Cursor → Token × Cursor → Prop
  | mk {t t' : Token} {q q' : Place} (same : SameToken t t') (alike : q.Alike q') :
      SameFound p p' (t, ⟨p, q⟩) (t', ⟨p', q'⟩)

/-- The outcomes of trying one form in both texts. -/
inductive AttemptAlike (p p' : Place) : Attempt → Attempt → Prop
  | exhausted (a : Attempt) : AttemptAlike p p' (.stop .exhausted) a
  | exhausted' (a : Attempt) : AttemptAlike p p' a (.stop .exhausted)
  | token {t t' : Token} {behind behind' : Cursor} (found : SameFound p p' (t, behind) (t', behind')) :
      AttemptAlike p p' (.token t behind) (.token t' behind')
  | failure (reason reason' : String) : AttemptAlike p p' (.failure reason) (.failure reason')
  | stop {c d : CompileError} (variant : c.SameVariant d) : AttemptAlike p p' (.stop (.error c)) (.stop (.error d))

section
variable {scope : Scope} {rules rules' : RuleReader} {p p' : Place}

theorem Terminal.attempt_alike {form : Terminal} (hf : form.pattern.solid) (h : p.Alike p') :
    AttemptAlike p p' (form.attempt ⟨p, p.skip⟩) (form.attempt ⟨p', p'.skip⟩) := by
  obtain ⟨word, tail, tail', hword⟩ := h.sameWord
  obtain ⟨hleft, hright⟩ := hword.match? hf
  simp only [attempt, Cursor.rest, hleft, hright]
  cases hmatch : form.pattern.match? word with
  | none => exact .failure _ _
  | some w =>
    dsimp only
    cases form.read w with
    | error reason => exact .failure _ _
    | ok payload =>
      obtain ⟨more, hmore⟩ := Pattern.append_of_match? hmatch
      exact .token (.mk ⟨rfl, rfl, fun _ => rfl⟩ (hword.drop ⟨more, hmore.symm⟩))

theorem Rule.attempt_exhausted {form : Rule} {start : Place} (h : rules form (.ofPlace start) = .error .exhausted) :
    form.attempt rules ⟨p, start⟩ = .stop .exhausted := by
  simp only [attempt, show Cursor.fork ⟨p, start⟩ = .ofPlace start from rfl, h]

theorem Rule.attempt_alike (hr : rules.Derives scope) (hr' : rules'.Derives scope) (hrules : rules.Alike rules')
    (form : Rule) (h : p.Alike p') :
    AttemptAlike p p' (form.attempt rules ⟨p, p.skip⟩) (form.attempt rules' ⟨p', p'.skip⟩) := by
  have hread := hrules form p.skip p'.skip h.skip
  generalize hleft : rules form (.ofPlace p.skip) = r, hright : rules' form (.ofPlace p'.skip) = r' at hread
  cases hread with
  | exhausted =>
    rw [attempt_exhausted hleft]
    exact .exhausted _
  | exhausted' =>
    rw [attempt_exhausted hright]
    exact .exhausted' _
  | ok value =>
    obtain ⟨payload, alike⟩ := value
    -- both streams are led to the very places at which the rule stopped
    obtain ⟨_, hq, hderives⟩ := hr form p.skip payload _ hleft
    obtain ⟨_, hq', hderives'⟩ := hr' form p'.skip payload _ hright
    cases hq
    cases hq'
    obtain ⟨text, htoken⟩ := attempt_of_ok (p := p) hleft hderives.reaches
    obtain ⟨text', htoken'⟩ := attempt_of_ok (p := p') hright hderives'.reaches
    rw [htoken, htoken']
    refine .token (.mk ⟨rfl, rfl, fun hname => ?_⟩ alike)
    cases form <;> cases hname
  | error stops =>
    obtain @⟨c, d, variant⟩ := stops
    simp only [attempt, show Cursor.fork ⟨p, p.skip⟩ = .ofPlace p.skip from rfl,
      show Cursor.fork ⟨p', p'.skip⟩ = .ofPlace p'.skip from rfl, hleft, hright, variant.isDefinitive]
    cases c.isDefinitive with
    | true => exact .stop variant
    | false => exact .failure _ _

theorem Matcher.attempt_alike (hr : rules.Derives scope) (hr' : rules'.Derives scope) (hrules : rules.Alike rules')
    {form : Matcher} (hf : form.solid) (h : p.Alike p') :
    AttemptAlike p p' (form.attempt rules ⟨p, p.skip⟩) (form.attempt rules' ⟨p', p'.skip⟩) := by
  cases form with
  | terminal form => exact form.attempt_alike hf h
  | rule form => exact form.attempt_alike hr hr' hrules h

theorem Matcher.scan_alike (hr : rules.Derives scope) (hr' : rules'.Derives scope) (hrules : rules.Alike rules')
    (h : p.Alike p') : ∀ {forms : List Matcher}, forms.all solid →
      SideBySide Stop.SameVariant (Option.Rel (SameFound p p')) (scan rules ⟨p, p.skip⟩ forms).1
        (scan rules' ⟨p', p'.skip⟩ forms).1
  | [], _ => .ok .none
  | form :: forms, hf => by
    obtain ⟨hform, hforms⟩ := (Bool.and_eq_true _ _).mp hf
    have hattempt := attempt_alike hr hr' hrules hform h
    unfold scan
    generalize form.attempt rules ⟨p, p.skip⟩ = a, form.attempt rules' ⟨p', p'.skip⟩ = a' at hattempt
    cases hattempt with
    | exhausted => exact .exhausted _
    | exhausted' => exact .exhausted' _
    | token found => exact .ok (.some found)
    | failure => exact scan_alike hr hr' hrules h hforms
    | stop variant => exact .error ⟨variant⟩

end

/-! ### Streams -/

namespace TokenStream

variable {S : Type} [DecidableEq S] {scope : Scope} {rules rules' : RuleReader} {g : Grammar S} {state : S}
  {p p' : Place}

/-- What comes next at places that are alike. -/
inductive PeekAlike (rules rules' : RuleReader) (g : Grammar S) (state : S) (p p' : Place) : Prop
  | exhausted (peeked : ((fresh g state p).peek rules).1 = .error .exhausted)
  | exhausted' (peeked : ((fresh g state p').peek rules').1 = .error .exhausted)
  | nothing (finds : Finds rules g state p none) (finds' : Finds rules' g state p' none)
  | found {t t' : Token} {q q' : Place} (same : SameToken t t') (alike : q.Alike q')
      (finds : Finds rules g state p (some (t, q))) (finds' : Finds rules' g state p' (some (t', q')))
  | error {c d : CompileError} (variant : c.SameVariant d) (peeked : ((fresh g state p).peek rules).1 = .error (.error c))
      (peeked' : ((fresh g state p').peek rules').1 = .error (.error d))

/-- In the last state nothing is looked for. -/
theorem finds_stop (rules : RuleReader) (g : Grammar S) (p : Place) : Finds rules g g.stop p none :=
  ⟨p, [], by simp only [peek, fresh, ite_true]; rfl⟩

theorem peek_of_scan (hstate : state ≠ g.stop) {reason : Stop}
    (hs : (Matcher.scan rules ⟨p, p.skip⟩ (g.matchers state)).1 = .error reason) :
    ((fresh g state p).peek rules).1 = .error reason := by
  have hskip : (Cursor.ofPlace p).revert.skipBlanks = ⟨p, p.skip⟩ := rfl
  simp only [peek, fresh, if_neg hstate, hskip]
  generalize Matcher.scan rules ⟨p, p.skip⟩ (g.matchers state) = outcome at hs
  obtain ⟨found, failures⟩ := outcome
  cases hs
  rfl

theorem peek_alike (hr : rules.Derives scope) (hr' : rules'.Derives scope) (hrules : rules.Alike rules') (hg : g.Solid)
    (state : S) (h : p.Alike p') : PeekAlike rules rules' g state p p' := by
  by_cases hstate : state = g.stop
  · subst hstate
    exact .nothing (finds_stop rules g p) (finds_stop rules' g p')
  have hscan := Matcher.scan_alike hr hr' hrules h (hg state)
  generalize hs : Matcher.scan rules ⟨p, p.skip⟩ (g.matchers state) = r,
    hs' : Matcher.scan rules' ⟨p', p'.skip⟩ (g.matchers state) = r' at hscan
  obtain ⟨r, failures⟩ := r
  obtain ⟨r', failures'⟩ := r'
  dsimp only at hscan
  cases hscan with
  | exhausted => exact .exhausted (peek_of_scan hstate (by rw [hs]))
  | exhausted' => exact .exhausted' (peek_of_scan hstate (by rw [hs']))
  | error stops =>
    obtain ⟨variant⟩ := stops
    exact .error variant (peek_of_scan hstate (by rw [hs])) (peek_of_scan hstate (by rw [hs']))
  | ok value =>
    cases value with
    | none => exact .nothing (finds_of_scan hstate rfl hs) (finds_of_scan hstate rfl hs')
    | some found =>
      obtain @⟨t, t', q, q', same, alike⟩ := found
      have hfinds : Finds rules g state p (some (t, q)) := finds_of_scan hstate rfl hs
      have hfinds' : Finds rules' g state p' (some (t', q')) := finds_of_scan hstate rfl hs'
      exact .found same alike hfinds hfinds'

/-- The variant of an error is decided by the state of the stream. -/
theorem sameVariant_error {s s' : TokenStream S} (hs : Stands rules g state p s) (hs' : Stands rules' g state p' s')
    (kinds : List TokenKind) : (s.error kinds).SameVariant (s'.error kinds) := by
  simp only [error, hs.grammar_eq, hs.state_eq, hs'.grammar_eq, hs'.state_eq]
  split <;> exact rfl

omit [DecidableEq S] in
theorem sameVariant_statementError {s s' : TokenStream S} (kinds : List TokenKind) :
    (s.statementError kinds).SameVariant (s'.statementError kinds) := by
  obtain ⟨_, h⟩ := s.statementError_eq kinds
  obtain ⟨_, h'⟩ := s'.statementError_eq kinds
  rw [h, h']
  rfl

end TokenStream

/-! ### Readers -/

namespace Reader

section
variable {S : Type} [DecidableEq S] {ctx : Context} {g : Grammar S} {state next : S} {p : Place} {s : TokenStream S}
  {kinds : List TokenKind} {reason : Stop}

theorem peek_eq_error (hs : Stands ctx.rules g state p s) (h : ((fresh g state p).peek ctx.rules).1 = .error reason) :
    ∃ s₁, peek ctx s = .error reason s₁ := by
  unfold Reader.peek
  rw [hs.peek]
  generalize (fresh g state p).peek ctx.rules = outcome at h
  obtain ⟨found, s₁⟩ := outcome
  cases h
  exact ⟨s₁, rfl⟩

theorem accept_eq_error (hs : Stands ctx.rules g state p s) (h : ((fresh g state p).peek ctx.rules).1 = .error reason) :
    ∃ s₁, accept ctx kinds next s = .error reason s₁ := by
  obtain ⟨s₁, hp⟩ := peek_eq_error hs h
  refine ⟨s₁, ?_⟩
  have ht : test ctx kinds s = .error reason s₁ := by
    change EStateM.bind (peek ctx) _ s = _
    rw [EStateM.bind, hp]
  change EStateM.bind (test ctx kinds) _ s = _
  rw [EStateM.bind, ht]

end

section
variable {S : Type} [DecidableEq S] {α β : Type} {ctx ctx' : Context} {g : Grammar S} {V : α → β → Prop}
  {x : Reader S α} {y : Reader S β} {state : S} {p p' : Place} {s s' : TokenStream S}

/-- The outcomes of two readers that are in step: values that are related, with streams that stand alike, or
    errors of one variant. -/
inductive InStep (ctx ctx' : Context) (g : Grammar S) (V : α → β → Prop) :
    EStateM.Result Stop (TokenStream S) α → EStateM.Result Stop (TokenStream S) β → Prop
  | exhausted (s : TokenStream S) (r : EStateM.Result Stop (TokenStream S) β) : InStep ctx ctx' g V (.error .exhausted s) r
  | exhausted' (r : EStateM.Result Stop (TokenStream S) α) (s : TokenStream S) : InStep ctx ctx' g V r (.error .exhausted s)
  | ok {a : α} {b : β} {s s' : TokenStream S} (state : S) {p p' : Place} (value : V a b) (alike : p.Alike p')
      (stands : Stands ctx.rules g state p s) (stands' : Stands ctx'.rules g state p' s') :
      InStep ctx ctx' g V (.ok a s) (.ok b s')
  | error {c d : CompileError} (s s' : TokenStream S) (variant : c.SameVariant d) :
      InStep ctx ctx' g V (.error (.error c) s) (.error (.error d) s')

/-- From places that are alike the readers stay in step. -/
def StayInStep (ctx ctx' : Context) (S α β : Type) [DecidableEq S] (V : α → β → Prop) (x : Reader S α) (y : Reader S β) :
    Prop :=
  ∀ (g : Grammar S) (state : S) (p p' : Place) (s s' : TokenStream S), g.Solid → p.Alike p' →
    Stands ctx.rules g state p s → Stands ctx'.rules g state p' s' → InStep ctx ctx' g V (x s) (y s')

theorem StayInStep.bind {γ δ : Type} {W : γ → δ → Prop} {f : α → Reader S γ} {h : β → Reader S δ}
    (hx : StayInStep ctx ctx' S α β V x y) (hf : ∀ a b, V a b → StayInStep ctx ctx' S γ δ W (f a) (h b)) :
    StayInStep ctx ctx' S γ δ W (x >>= f) (y >>= h) := by
  intro g state p p' s s' hg hp hs hs'
  have hstep := hx g state p p' s s' hg hp hs hs'
  change InStep ctx ctx' g W (EStateM.bind x f s) (EStateM.bind y h s')
  unfold EStateM.bind
  generalize x s = r, y s' = r' at hstep
  cases hstep with
  | exhausted => exact .exhausted _ _
  | exhausted' => exact .exhausted' _ _
  | ok state value alike stands stands' => exact hf _ _ value g state _ _ _ _ hg alike stands stands'
  | error _ _ variant => exact .error _ _ variant

/-- What the readers give from places that are alike. -/
theorem InStep.of_reads {next : S} {q q' : Place} {a : α} {b : β} (hs : Stands ctx.rules g state p s)
    (hs' : Stands ctx'.rules g state p' s') (hx : Reads ctx g x state p a next q) (hy : Reads ctx' g y state p' b next q')
    (value : V a b) (alike : q.Alike q') : InStep ctx ctx' g V (x s) (y s') := by
  obtain ⟨s₁, hx, hs₁⟩ := hx s hs
  obtain ⟨s₁', hy, hs₁'⟩ := hy s' hs'
  rw [hx, hy]
  exact .ok next value alike hs₁ hs₁'

theorem StayInStep.run {y : Reader S α} (h : StayInStep ctx ctx' S α α Eq x y) (hg : g.Solid) (hp : p.Alike p') :
    SideBySide Stop.SameVariant SameTree (x.run g (.ofPlace p)) (y.run g (.ofPlace p')) := by
  have hstep := h g g.start p p' _ _ hg hp (stands_fresh ctx.rules g g.start p) (stands_fresh ctx'.rules g g.start p')
  unfold Reader.run
  rw [show TokenStream.ofCursor g (.ofPlace p) = fresh g g.start p from rfl,
    show TokenStream.ofCursor g (.ofPlace p') = fresh g g.start p' from rfl]
  generalize x (fresh g g.start p) = r, y (fresh g g.start p') = r' at hstep
  cases hstep with
  | exhausted => exact .exhausted _
  | exhausted' => exact .exhausted' _
  | ok state value alike stands stands' =>
    cases value
    simp only [stands.release, stands'.release]
    exact .ok (.mk _ alike)
  | error _ _ variant => exact .error ⟨variant⟩

end

section
variable {S : Type} [DecidableEq S] {scope : Scope} {rules rules' : RuleReader} (hr : rules.Derives scope)
  (hr' : rules'.Derives scope) (hrules : rules.Alike rules')
include hr hr' hrules

theorem peek_inStep : StayInStep ⟨scope, rules⟩ ⟨scope, rules'⟩ S _ _ (Option.Rel SameToken) (peek ⟨scope, rules⟩)
    (peek ⟨scope, rules'⟩) := by
  intro g state p p' s s' hg hp hs hs'
  cases peek_alike hr hr' hrules hg state hp with
  | exhausted peeked =>
    obtain ⟨s₁, h⟩ := peek_eq_error hs peeked
    rw [h]
    exact .exhausted _ _
  | exhausted' peeked =>
    obtain ⟨s₁, h⟩ := peek_eq_error hs' peeked
    rw [h]
    exact .exhausted' _ _
  | nothing finds finds' => exact .of_reads hs hs' (.peek finds) (.peek finds') .none hp
  | found same alike finds finds' => exact .of_reads hs hs' (.peek finds) (.peek finds') (.some same) hp
  | error variant peeked peeked' =>
    obtain ⟨s₁, h⟩ := peek_eq_error hs peeked
    obtain ⟨s₁', h'⟩ := peek_eq_error hs' peeked'
    rw [h, h']
    exact .error _ _ variant

theorem accept_inStep (kinds : List TokenKind) (next : S) :
    StayInStep ⟨scope, rules⟩ ⟨scope, rules'⟩ S _ _ (Option.Rel fun t t' => SameToken t t' ∧ t.kind ∈ kinds)
      (accept ⟨scope, rules⟩ kinds next) (accept ⟨scope, rules'⟩ kinds next) := by
  intro g state p p' s s' hg hp hs hs'
  cases peek_alike hr hr' hrules hg state hp with
  | exhausted peeked =>
    obtain ⟨s₁, h⟩ := accept_eq_error hs peeked
    rw [h]
    exact .exhausted _ _
  | exhausted' peeked =>
    obtain ⟨s₁, h⟩ := accept_eq_error hs' peeked
    rw [h]
    exact .exhausted' _ _
  | nothing finds finds' =>
    exact .of_reads hs hs' (.accept_none finds rfl) (.accept_none finds' rfl) .none hp
  | @found t t' q q' same alike finds finds' =>
    cases hk : kinds.contains t.kind with
    | true =>
      have hk' : kinds.contains t'.kind := by rwa [same.kind]
      exact .of_reads hs hs' (.accept finds hk) (.accept finds' hk') (.some ⟨same, by simpa using hk⟩) alike
    | false =>
      have hk' : kinds.contains t'.kind = false := by rwa [same.kind]
      exact .of_reads hs hs' (.accept_none finds hk) (.accept_none finds' hk') .none hp
  | error variant peeked peeked' =>
    obtain ⟨s₁, h⟩ := accept_eq_error hs peeked
    obtain ⟨s₁', h'⟩ := accept_eq_error hs' peeked'
    rw [h, h']
    exact .error _ _ variant

end

theorem sameVariant_unresolved (name : String) (position position' : Position) (kind : SymbolKind) :
    (unresolved name position kind).SameVariant (unresolved name position' kind) := by
  unfold unresolved
  split <;> exact rfl

/-- All readers stay in step if the rules inside them are read alike. -/
theorem parallel_inStep {scope : Scope} {rules rules' : RuleReader} (hr : rules.Derives scope)
    (hr' : rules'.Derives scope) (hrules : rules.Alike rules') :
    Parallel ⟨scope, rules⟩ ⟨scope, rules'⟩ SameToken CompileError.SameVariant
      (StayInStep ⟨scope, rules⟩ ⟨scope, rules'⟩) where
  pure value _ state _ _ _ _ _ hp hs hs' := .ok state value hp hs hs'
  exhausted _ _ _ _ _ _ _ _ _ _ _ := .exhausted _ _
  exhausted' _ _ _ _ _ _ _ _ _ _ _ := .exhausted' _ _
  fail variant _ _ _ _ _ _ _ _ _ _ := .error _ _ variant
  bind := StayInStep.bind
  atEnd g state p p' s s' hg hp hs hs' := by
    refine .of_reads hs hs' (.atEnd_skip _ g state p) (.atEnd_skip _ g state p') ?_ hp.skip
    obtain ⟨word, tail, tail', hword⟩ := hp.sameWord
    rw [hword.left, hword.right]
    cases word with
    | nil => rw [(hword.ended rfl).1, (hword.ended rfl).2]
    | cons c word => rfl
  peek := peek_inStep hr hr' hrules
  accept := accept_inStep hr hr' hrules
  setState next _ _ _ _ _ _ _ hp hs hs' := .of_reads hs hs' (.setState next) (.setState next) rfl hp
  error kinds _ _ _ _ _ _ _ _ hs hs' := .error _ _ (sameVariant_error hs hs' kinds)
  statementError kinds _ _ _ _ _ _ _ _ _ _ := .error _ _ (sameVariant_statementError kinds)
  kind h := h.kind
  payload h := h.payload
  located _ e := by cases e <;> rfl
  malformed _ _ := rfl
  text h := h.text
  unsupported _ _ := rfl
  resolveVariable {S _ t t'} h hk _ state _ _ _ _ _ hp hs hs' := by
    unfold Reader.resolveVariable Scope.resolveVariable
    dsimp only
    rw [h.text hk]
    cases scope.variableNamed? t.text with
    | some target => exact .ok state rfl hp hs hs'
    | none => exact .error _ _ (sameVariant_unresolved ..)
  resolveFunction {S _ t t'} h hk _ state _ _ _ _ _ hp hs hs' := by
    unfold Reader.resolveFunction Scope.resolveFunction
    dsimp only
    rw [h.text hk]
    cases scope.functionNamed? t.text with
    | some function => exact .ok state rfl hp hs hs'
    | none => exact .error _ _ (sameVariant_unresolved ..)

end Reader

/-! ### Rules and programs -/

namespace Rule

/-- However deeply rules may nest in the one read and in the other. -/
theorem readWithin_alike (scope : Scope) : ∀ depth depth', (readWithin scope depth).Alike (readWithin scope depth')
  | 0, _ => fun _ _ _ _ => .exhausted _
  | _ + 1, 0 => fun _ _ _ _ => .exhausted' _
  | depth + 1, depth' + 1 => fun rule p p' hp => by
    have hparallel := parallel_inStep (derives_readWithin depth) (derives_readWithin depth') (readWithin_alike scope depth depth')
    obtain ⟨α, make, x, y, hstep, hx, hy⟩ := hparallel.body rule (.ofPlace p) (.ofPlace p')
    change SideBySide _ SameTree (rule.body _ (.ofPlace p)) (rule.body _ (.ofPlace p'))
    rw [hx, hy]
    refine (hstep.run (Construct.solid (.rule rule)) hp).wrap ?_
    rintro _ _ ⟨tree, alike⟩
    exact .mk _ alike

theorem read_alike (scope : Scope) : (read scope).Alike (read scope) :=
  fun rule p p' hp => readWithin_alike scope _ _ rule p p' hp

end Rule

theorem Program.read_alike (scope : Scope) {text text' : String} (h : runs text.toList = runs text'.toList) :
    SideBySide Stop.SameVariant Eq (read scope text) (read scope text') := by
  have hparallel (scope : Scope) := parallel_inStep Rule.derives_read Rule.derives_read (Rule.read_alike scope)
  refine .bind ((hparallel scope).programLocals.run (Construct.solid .program) h) ?_
  rintro _ _ ⟨locals, alike⟩
  have hbody (n m : Nat) := (hparallel (scope.declareAll locals)).bind_eq
    ((hparallel (scope.declareAll locals)).setState Grammar.ProgramState.body)
    fun _ => (hparallel (scope.declareAll locals)).programBody n m
  refine .bind ((hbody _ _).run (Construct.solid .program) alike) ?_
  rintro _ _ ⟨body, -⟩
  dsimp only
  split
  · exact .ok rfl
  · exact .error ⟨rfl⟩

/-- How a text is laid out makes no difference. Texts that have the same runs of characters between their
    blanks compile to the same artifact, or both fail with an error of the same variant. -/
theorem layout_immaterial {text text' : String} (h : runs text.toList = runs text'.toList) (signature : Signature)
    (host : HostScope) :
    (∃ artifact, compile text signature host = .ok artifact ∧ compile text' signature host = .ok artifact) ∨
    ∃ c d, compile text signature host = .error (.error c) ∧ compile text' signature host = .error (.error d) ∧
      c.SameVariant d := by
  unfold compile
  cases signature.validate with
  | error cause => exact .inr ⟨cause, cause, rfl, rfl, rfl⟩
  | ok _ =>
    dsimp only
    have hread := Program.read_alike (.bind signature host) h
    have hfound (text : String) : Program.read (.bind signature host) text ≠ .error .exhausted :=
      fun hout => Program.foundFrom_of_read hout
    generalize hleft : Program.read (.bind signature host) text = r,
      hright : Program.read (.bind signature host) text' = r' at hread
    cases hread with
    | exhausted => exact absurd hleft (hfound text)
    | exhausted' => exact absurd hright (hfound text')
    | ok value =>
      cases value
      exact .inl ⟨_, rfl, rfl⟩
    | error stops =>
      obtain ⟨variant⟩ := stops
      exact .inr ⟨_, _, rfl, rfl, variant⟩

/-- A program with single blanks in it. -/
def plainlyLaid : String := "var a; a = x ;if(x>0) \x7b a = 2 ; \x7d return a+1 ;"

/-- The same with tabs, line ends and wide blanks, in front of it and behind it too. -/
def widelyLaid : String :=
  "\u2003var\ta;\n a\u00a0= x\r\n;if(x>0)\u3000\x7b\na =\n2\n; \x7d return\u2028a+1 ; \n"

theorem layout_immaterial_wide : runs plainlyLaid.toList = runs widelyLaid.toList ∧ ∃ artifact,
    compile plainlyLaid ⟨[⟨"x", .integer⟩], .integer⟩ {} = .ok artifact ∧
    compile widelyLaid ⟨[⟨"x", .integer⟩], .integer⟩ {} = .ok artifact := by
  have hruns : runs plainlyLaid.toList = runs widelyLaid.toList := by decide +kernel
  refine ⟨hruns, ?_⟩
  rcases layout_immaterial hruns ⟨[⟨"x", .integer⟩], .integer⟩ {} with hok | ⟨c, d, hc, -, -⟩
  · exact hok
  · have hcompiles : (compile plainlyLaid ⟨[⟨"x", .integer⟩], .integer⟩ {}).isOk := by decide +kernel
    rw [hc] at hcompiles
    cases hcompiles

end HostScript
