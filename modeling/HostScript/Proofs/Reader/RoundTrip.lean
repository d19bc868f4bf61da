import HostScript.Proofs.Reader.Completeness

/-! A program that is written down is read back.

The words of a spelling, joined to texts of statements and expressions, are a derivation, and what is
derived is read. -/

namespace HostScript

open Reader

/-- Blanks between the words are no hindrance. -/
theorem Layout.joined {ws : List String} {text : List Char} (h : Layout ws text) :
    ∃ u gap, text = u ++ gap ∧ Joined ws u ∧ ∀ c ∈ gap, isBlank c := by
  induction h with
  | @done gap blank => exact ⟨[], gap, rfl, .nil, blank⟩
  | @word gap text w ws blank apart rest ih =>
    obtain ⟨u, gap', rfl, hu, hgap⟩ := ih
    have hparted : Parted w.toList (u ++ gap') := .of_head fun d hd => not_isNameChar_of_not_isWordChar
      (not_isWordChar_of_isBlank (apart d hd))
    exact ⟨_, gap', (List.append_assoc ..).symm, .cons blank hparted.of_append_right hu, hgap⟩

/-- The statements of a body are pieces of the text, derived one by one. -/
theorem Joined.group_parts {scope : Scope} {parts : List (Stmt × List String)} (xs ys : List String)
    (h : ∀ part ∈ parts, ∀ v, Joined part.2 v → part.1.Derived scope (String.ofList v)) {u : List Char}
    (joined : Joined (xs ++ ((parts.map Prod.snd).flatten ++ ys)) u) :
    ∃ body : List (Stmt × String), body.map Prod.fst = parts.map Prod.fst ∧
      (∀ part ∈ body, part.1.Derived scope part.2) ∧ Joined (xs ++ (body.map Prod.snd ++ ys)) u := by
  induction parts generalizing xs with
  | nil => exact ⟨[], rfl, List.forall_mem_nil _, joined⟩
  | cons part parts ih =>
    obtain ⟨first, rest⟩ := List.forall_mem_cons.mp h
    rw [List.map_cons, List.flatten_cons, List.append_assoc] at joined
    obtain ⟨v, hv, joined⟩ := joined.group xs _
    rw [List.append_cons] at joined
    obtain ⟨body, hbody, derived, joined⟩ := ih _ rest joined
    refine ⟨(part.1, String.ofList v) :: body, by simp [hbody], List.forall_mem_cons.mpr ⟨first v hv, derived⟩, ?_⟩
    rwa [← List.append_cons] at joined

/-- A spelling of a typed statement, in whatever text its words are joined, is a derivation. -/
theorem Stmt.Spelled.derived {scope : Scope} {t : Stmt} {ws : List String} (h : t.Spelled ws) (typed : t.Typed scope)
    (settled : t.Settled) : ∀ u, Joined ws u → t.Derived scope (String.ofList u) := by
  induction h with
  | @assign target value ws named free spelled =>
    intro u hu
    cases typed with
    | assign found ty typed =>
      obtain ⟨v, hv, hu⟩ := Joined.group [target.name, "="] [";"] hu
      exact .assign named free found ty (spelled.readWhole typed hv) (by rwa [String.toList_ofList])
  | @ret value ws spelled =>
    intro u hu
    cases typed with
    | ret ty typed =>
      obtain ⟨v, hv, hu⟩ := Joined.group ["return"] [";"] hu
      exact .ret ty (spelled.readWhole typed hv) (by rwa [String.toList_ofList])
  | @expr value ws spelled =>
    intro u hu
    cases typed with
    | expr typed =>
      obtain ⟨v, hv, hu⟩ := Joined.group [] [";"] hu
      exact .expr (spelled.readWhole typed hv) (by rwa [String.toList_ofList])
  | empty =>
    intro u hu
    exact .empty (by rwa [String.toList_ofList])
  | @block parts spelled ih =>
    intro u hu
    cases typed with
    | block typed =>
      cases settled with
      | block settled =>
        have hparts : ∀ part ∈ parts, ∀ v, Joined part.2 v → part.1.Derived scope (String.ofList v) := fun part hpart =>
          ih part hpart (typed _ (List.mem_map_of_mem hpart)) (settled _ (List.mem_map_of_mem hpart))
        obtain ⟨body, hbody, derived, hu⟩ := Joined.group_parts ["\x7b"] ["\x7d"] hparts hu
        rw [← hbody]
        exact .block derived (by rwa [String.toList_ofList])
  | @branch condition decided thenBranch cs ts spelled first ih =>
    intro u hu
    cases typed with
    | branch ty typed thenTyped =>
      cases settled with
      | branch thenSettled =>
        rw [← List.append_nil ts] at hu
        obtain ⟨c, hc, hu⟩ := Joined.group ["if", "("] (")" :: ts ++ []) hu
        obtain ⟨t, ht, hu⟩ := Joined.group ["if", "(", String.ofList c, ")"] [] hu
        exact .branch ty (spelled.readWhole typed hc) (ih thenTyped thenSettled t ht) (by rwa [String.toList_ofList])
  | @branchElse condition decided thenBranch elseBranch cs ts es spelled first closed second ihThen ihElse =>
    intro u hu
    cases typed with
    | branch ty typed thenTyped elseTyped =>
      cases settled with
      | branch thenSettled elseSettled =>
        rw [List.append_assoc, ← List.append_nil es] at hu
        obtain ⟨c, hc, hu⟩ := Joined.group ["if", "("] (")" :: ts ++ "else" :: (es ++ [])) hu
        obtain ⟨t, ht, hu⟩ := Joined.group ["if", "(", String.ofList c, ")"] ("else" :: (es ++ [])) hu
        obtain ⟨e, he, hu⟩ := Joined.group ["if", "(", String.ofList c, ")", String.ofList t, "else"] [] hu
        exact .branchElse ty (spelled.readWhole typed hc) (ihThen thenTyped thenSettled t ht) closed
          (ihElse (elseTyped _ rfl) (elseSettled _ rfl) e he) (by rwa [String.toList_ofList])

/-! ### Whole programs -/

namespace Program

/-- A program over a scope: its locals are distinct, every name stands for what the scope says, every
    branch knows what its condition folds to, and some statement returns for certain. -/
structure WellFormed (scope : Scope) (p : Program) : Prop where
  distinct : p.locals.Nodup
  writable : p.Writable
  typed : p.Typed (scope.declareAll p.locals)
  settled : p.Settled
  returns : Stmt.anyReturns p.body

variable {scope : Scope} {p : Program} {ws : List String}

theorem eraseDups_of_nodup : ∀ {names : List String}, names.Nodup → names.eraseDups = names
  | [], _ => rfl
  | name :: names, h => by
    obtain ⟨hnew, h⟩ := List.nodup_cons.mp h
    have hothers : names.filter (fun other => !other == name) = names := by
      refine List.filter_eq_self.mpr fun other ho => ?_
      simpa using fun heq : other = name => hnew (heq ▸ ho)
    rw [List.eraseDups_cons, hothers, eraseDups_of_nodup h]

theorem read_of_laid (h : p.WellFormed scope) (spelled : p.Spelled ws) {text : String} (hlaid : Laid ws text.toList) :
    Program.read scope text = .ok (p, scope.declareAll p.locals) := by
  obtain @⟨locals, parts, names, spelled⟩ := spelled
  obtain ⟨distinct, -, typed, settled, returns⟩ := h
  have hparts : ∀ part ∈ parts, ∀ v, Joined part.2 v → part.1.Derived (scope.declareAll locals) (String.ofList v) :=
    fun part hpart => (spelled part hpart).derived (typed _ (List.mem_map_of_mem hpart))
      (settled _ (List.mem_map_of_mem hpart))
  obtain ⟨u, gap, whole, joined, blank⟩ := hlaid.layout.joined
  rw [← List.append_nil (parts.map Prod.snd).flatten] at joined
  obtain ⟨body, hbody, derived, joined⟩ := Joined.group_parts (declarationWords locals) [] hparts joined
  have hlocals : locals.eraseDups = locals := eraseDups_of_nodup distinct
  have hderived : Program.Derived scope ⟨locals.eraseDups, body.map Prod.fst⟩ text :=
    .mk names (by rwa [hlocals]) (by rwa [List.append_nil] at joined) blank whole
  rw [hlocals, hbody] at hderived
  rw [hderived.read, if_pos returns]

/-- A well-formed program is read from every text that spells it, whatever blanks stand between the
    words, and its own words do. -/
theorem read_spelling (h : p.WellFormed scope) : p.Spelled p.words ∧
    Program.read scope p.source = .ok (p, scope.declareAll p.locals) ∧
    ∀ ws, p.Spelled ws → ∀ text : String, Layout ws text.toList →
      Program.read scope text = .ok (p, scope.declareAll p.locals) := by
  have hread : ∀ ws, p.Spelled ws → ∀ text : String, Layout ws text.toList →
      Program.read scope text = .ok (p, scope.declareAll p.locals) :=
    fun ws hws text hl => read_of_laid h hws ⟨hl, hws.solid⟩
  exact ⟨h.writable.spelled, hread _ h.writable.spelled _ (layout_intercalate p.words), hread⟩

/-- A comparison that looks like an assignment, a name that starts with a keyword, and an `else` behind a
    block that ends with an `if`. -/
def sample (x returned : Variable) : Program :=
  ⟨["returned"],
    [.expr (.strict .eq (.var returned) (.const (.integer 1))),
     .branch (.strict .eq (.var x) (.const (.integer 2))) none
       (.block [.branch (.const (.boolean true)) (some true) .empty none]) (some (.assign returned (.var x))),
     .ret (.strict .mul (.strict .add (.var x) (.var returned)) (.const (.integer 3)))]⟩

theorem wellFormed_sample : (sample ⟨"x", .parameter 0, .integer⟩ ⟨"returned", .localSlot 0, .integer⟩).WellFormed
    (Scope.bind ⟨[⟨"x", .integer⟩], .integer⟩ {}) where
  distinct := by decide
  writable := by
    have hx : (Expr.var ⟨"x", .parameter 0, .integer⟩).Writable := .var (by decide) (by decide)
    have hreturned : (Expr.var ⟨"returned", .localSlot 0, .integer⟩).Writable := .var (by decide) (by decide)
    refine ⟨by decide, ?_⟩
    simp only [sample, List.forall_mem_cons, List.not_mem_nil, false_implies, implies_true, and_true]
    refine ⟨.expr (.binary (.strict .eq) hreturned (.integer (by decide))), .branch
      (.binary (.strict .eq) hx (.integer (by decide))) (.block ?_) ?_ (fun _ => rfl),
      .ret (.binary (.strict .mul) (.binary (.strict .add) hx hreturned) (.integer (by decide)))⟩
    · exact List.forall_mem_singleton.mpr (.branch (.boolean true) .empty (by simp) (by simp))
    · rintro _ ⟨⟩
      exact .assign (by decide) (by decide) hx
  typed := by
    simp only [Typed, sample, List.forall_mem_cons, List.not_mem_nil, false_implies, implies_true, and_true]
    refine ⟨.expr (.strict rfl rfl (.var rfl) (.const _)), .branch rfl (.strict rfl rfl (.var rfl) (.const _)) (.block ?_) ?_,
      .ret rfl (.strict rfl rfl (.strict rfl rfl (.var rfl) (.var rfl)) (.const _))⟩
    · exact List.forall_mem_singleton.mpr (.branch rfl (.const _) .empty (by simp))
    · rintro _ ⟨⟩
      exact .assign rfl rfl (.var rfl)
  settled := by
    simp only [Settled, sample, List.forall_mem_cons, List.not_mem_nil, false_implies, implies_true, and_true]
    refine ⟨.expr _, .branch (.block ?_) ?_, .ret _⟩
    · exact List.forall_mem_singleton.mpr (.branch .empty (by simp))
    · rintro _ ⟨⟩
      exact .assign _ _
  returns := by decide

theorem read_spelling_sample :
    let p := sample ⟨"x", .parameter 0, .integer⟩ ⟨"returned", .localSlot 0, .integer⟩
    let scope := Scope.bind ⟨[⟨"x", .integer⟩], .integer⟩ {}
    p.WellFormed scope ∧ Program.read scope ("var returned ; returned == 1 ; " ++
      "if ( x == 2 ) \x7b if ( true ) ; \x7d else returned = x ; return ( x + returned ) * 3 ;") =
        .ok (p, scope.declareAll ["returned"]) := by
  have hsource : (sample ⟨"x", .parameter 0, .integer⟩ ⟨"returned", .localSlot 0, .integer⟩).source =
      "var returned ; returned == 1 ; " ++
        "if ( x == 2 ) \x7b if ( true ) ; \x7d else returned = x ; return ( x + returned ) * 3 ;" := by
    decide +kernel
  refine ⟨wellFormed_sample, ?_⟩
  rw [← hsource]
  exact (read_spelling wellFormed_sample).2.1

end Program

end HostScript
