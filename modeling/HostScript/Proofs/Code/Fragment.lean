import HostScript.Code.Generator

/-! Where the code of a tree comes to stand. A fragment is the code of a tree at an address, together
with the targets of its labels, which are numbered from a given one on. What a visit writes into a chunk
is the fragment of the tree at the end of that chunk; so the code of a program is known without the
chunks on the way to it, and every label that was made has been marked. -/

namespace HostScript

/-- The code of a tree and the targets of its labels. -/
structure Fragment where
  code : List Instr := []
  targets : List Nat := []
  deriving DecidableEq

namespace Expr

mutual

/-- The fragment of an expression at an address, with labels from a given one on. -/
def fragment : Expr → Nat → Label → Fragment
  | const value, _, _ => { code := [.push value] }
  | var target, _, _ => { code := [target.load] }
  | unary op operand, address, label =>
    let inner := operand.fragment address label
    ⟨inner.code ++ op.code, inner.targets⟩
  | strict op left right, address, label =>
    let a := left.fragment address label
    let b := right.fragment (address + a.code.length) (label + a.targets.length)
    ⟨a.code ++ b.code ++ [.strict op], a.targets ++ b.targets⟩
  | logical .or left right, address, label =>
    let a := left.fragment address (label + 2)
    let short := address + a.code.length + 3
    let b := right.fragment short (label + 2 + a.targets.length)
    ⟨a.code ++ [.jumpUnless label, .push (.boolean true), .jump (label + 1)] ++ b.code,
      short :: (short + b.code.length) :: (a.targets ++ b.targets)⟩
  | logical .and left right, address, label =>
    let a := left.fragment address (label + 2)
    let b := right.fragment (address + a.code.length + 1) (label + 2 + a.targets.length)
    let short := address + a.code.length + 1 + b.code.length + 1
    ⟨a.code ++ [.jumpUnless label] ++ b.code ++ [.jump (label + 1), .push (.boolean false)],
      short :: (short + 1) :: (a.targets ++ b.targets)⟩
  | call _ function returns args, address, label =>
    let inner := fragments args address label
    ⟨inner.code ++ [.call function args.length returns], inner.targets⟩

/-- The expressions one behind another. -/
def fragments : List Expr → Nat → Label → Fragment
  | [], _, _ => {}
  | e :: es, address, label =>
    let a := e.fragment address label
    let b := fragments es (address + a.code.length) (label + a.targets.length)
    ⟨a.code ++ b.code, a.targets ++ b.targets⟩

end

end Expr

namespace Stmt

mutual

/-- The fragment of a statement. -/
def fragment : Stmt → Nat → Label → Fragment
  | declare _, _, _ | empty, _, _ => {}
  | assign target value, address, label =>
    let inner := value.fragment address label
    ⟨inner.code ++ [target.store], inner.targets⟩
  | ret value, address, label =>
    let inner := value.fragment address label
    ⟨inner.code ++ [.ret], inner.targets⟩
  | expr value, address, label =>
    let inner := value.fragment address label
    ⟨inner.code ++ (if value.ty.isValue then [.pop] else []), inner.targets⟩
  | block body, address, label => fragments body address label
  | branch _ (some true) thenBranch _, address, label => thenBranch.fragment address label
  | branch _ (some false) _ elseBranch, address, label => optionFragment elseBranch address label
  | branch condition none thenBranch none, address, label =>
    let c := condition.fragment address (label + 1)
    let t := thenBranch.fragment (address + c.code.length + 1) (label + 1 + c.targets.length)
    ⟨c.code ++ [.jumpUnless label] ++ t.code,
      (address + c.code.length + 1 + t.code.length) :: (c.targets ++ t.targets)⟩
  | branch condition none thenBranch (some elseBranch), address, label =>
    let c := condition.fragment address (label + 1)
    let t := thenBranch.fragment (address + c.code.length + 1) (label + 1 + c.targets.length)
    let exit := label + 1 + c.targets.length + t.targets.length
    let otherwise := address + c.code.length + 1 + t.code.length + 1
    let e := elseBranch.fragment otherwise (exit + 1)
    ⟨c.code ++ [.jumpUnless label] ++ t.code ++ [.jump exit] ++ e.code,
      otherwise :: (c.targets ++ t.targets ++ (otherwise + e.code.length) :: e.targets)⟩

/-- The statements one behind another. -/
def fragments : List Stmt → Nat → Label → Fragment
  | [], _, _ => {}
  | s :: body, address, label =>
    let a := s.fragment address label
    let b := fragments body (address + a.code.length) (label + a.targets.length)
    ⟨a.code ++ b.code, a.targets ++ b.targets⟩

/-- The fragment of a statement that may be missing. -/
def optionFragment : Option Stmt → Nat → Label → Fragment
  | none, _, _ => {}
  | some s, address, label => s.fragment address label

end

end Stmt

/-! ### What a visit writes -/

namespace Chunk

/-- The chunk with a fragment behind its code and its labels. -/
def append (chunk : Chunk) (f : Fragment) : Chunk := ⟨chunk.code ++ f.code, chunk.labels ++ f.targets.map some⟩

theorem writeAll_eq (code : List Instr) (chunk : Chunk) :
    chunk.writeAll code = { chunk with code := chunk.code ++ code } := by
  induction code generalizing chunk with
  | nil => simp [writeAll]
  | cons i code ih =>
    change (chunk.write i).writeAll code = _
    simp [ih, write]

/-- A label that was made and not marked is bound where it stands in the table. -/
theorem mark_unbound (code : List Instr) (before after : List (Option Nat)) :
    mark ⟨code, before ++ none :: after⟩ before.length = ⟨code, before ++ some code.length :: after⟩ := by
  simp [mark]

theorem mark_unbound_next (code : List Instr) (before after : List (Option Nat)) (first : Option Nat) :
    mark ⟨code, before ++ first :: none :: after⟩ (before.length + 1) =
      ⟨code, before ++ first :: some code.length :: after⟩ := by
  have hmark := mark_unbound code (before ++ [first]) after
  rwa [List.length_append, List.length_singleton, ← List.append_cons, ← List.append_cons] at hmark

end Chunk

/-- A visit writes a fragment wherever the chunk ends. -/
def Emits (emit : Chunk → Chunk) (fragment : Nat → Label → Fragment) : Prop :=
  ∀ chunk, emit chunk = chunk.append (fragment chunk.code.length chunk.labels.length)

namespace Emits

variable {emit next : Chunk → Chunk} {fragment rest : Nat → Label → Fragment} {code : List Instr}
  {labels : List (Option Nat)} {address : Nat} {label : Label}

/-- The fragment at an address and a first label that are known. -/
theorem mk_eq (h : Emits emit fragment) (hcode : code.length = address) (hlabels : labels.length = label) :
    emit ⟨code, labels⟩ = ⟨code ++ (fragment address label).code, labels ++ (fragment address label).targets.map some⟩ := by
  rw [← hcode, ← hlabels]
  exact h ⟨code, labels⟩

/-- Nothing is written. -/
theorem id : Emits (fun chunk => chunk) fun _ _ => {} := fun chunk => by simp [Chunk.append]

/-- One visit behind another. -/
theorem seq (h : Emits emit fragment) (hnext : Emits next rest) : Emits (fun chunk => next (emit chunk)) fun address label =>
    let a := fragment address label
    let b := rest (address + a.code.length) (label + a.targets.length)
    ⟨a.code ++ b.code, a.targets ++ b.targets⟩ := by
  intro chunk
  have hlabels : (chunk.labels ++ (fragment chunk.code.length chunk.labels.length).targets.map some).length =
      chunk.labels.length + (fragment chunk.code.length chunk.labels.length).targets.length := by simp
  simp only [h chunk, Chunk.append, hnext.mk_eq List.length_append hlabels, List.append_assoc, List.map_append]

/-- Instructions without labels. -/
theorem writeAll (h : Emits emit fragment) (code : List Instr) : Emits (fun chunk => (emit chunk).writeAll code)
    fun address label => ⟨(fragment address label).code ++ code, (fragment address label).targets⟩ := by
  intro chunk
  simp [h chunk, Chunk.append, Chunk.writeAll_eq]

theorem write (h : Emits emit fragment) (i : Instr) : Emits (fun chunk => (emit chunk).write i)
    fun address label => ⟨(fragment address label).code ++ [i], (fragment address label).targets⟩ := h.writeAll [i]

end Emits

namespace Expr

variable {left right : Expr}

theorem emits_or (hleft : Emits left.emit left.fragment) (hright : Emits right.emit right.fragment) :
    Emits (logical .or left right).emit (logical .or left right).fragment := by
  rintro ⟨code, labels⟩
  have hlabels : (labels ++ [none, none]).length = labels.length + 2 := List.length_append
  unfold emit fragment
  simp only [Chunk.newLabel, List.append_assoc, List.cons_append, List.nil_append, List.length_append,
    List.length_singleton, hleft.mk_eq rfl hlabels, Chunk.writeAll_eq, Chunk.mark_unbound]
  generalize left.fragment code.length (labels.length + 2) = a
  rw [hright.mk_eq (by simp [Nat.add_assoc] : _ = code.length + a.code.length + 3)
    (by simp; omega : _ = labels.length + 2 + a.targets.length)]
  generalize right.fragment _ _ = b
  simp only [List.append_assoc, List.cons_append, Chunk.mark_unbound_next]
  simp [Chunk.append, Nat.add_assoc, Nat.add_comm 3]

theorem emits_and (hleft : Emits left.emit left.fragment) (hright : Emits right.emit right.fragment) :
    Emits (logical .and left right).emit (logical .and left right).fragment := by
  rintro ⟨code, labels⟩
  have hlabels : (labels ++ [none, none]).length = labels.length + 2 := List.length_append
  unfold emit fragment
  simp only [Chunk.newLabel, List.append_assoc, List.cons_append, List.nil_append, List.length_append,
    List.length_singleton, hleft.mk_eq rfl hlabels, Chunk.write]
  generalize left.fragment code.length (labels.length + 2) = a
  rw [hright.mk_eq (by simp [Nat.add_assoc] : _ = code.length + a.code.length + 1)
    (by simp; omega : _ = labels.length + 2 + a.targets.length)]
  generalize right.fragment _ _ = b
  simp only [List.append_assoc, List.cons_append, Chunk.mark_unbound, Chunk.mark_unbound_next]
  simp [Chunk.append, Nat.add_assoc, Nat.add_comm 1]

mutual

/-- What is written for an expression is its fragment. -/
theorem emits : ∀ e : Expr, Emits e.emit e.fragment
  | const value => Emits.id.write (.push value)
  | var target => Emits.id.write target.load
  | unary op operand => operand.emits.writeAll op.code
  | strict op left right => (left.emits.seq right.emits).write (.strict op)
  | logical .or left right => emits_or left.emits right.emits
  | logical .and left right => emits_and left.emits right.emits
  | call _ function returns args => (emits_all args).write (.call function args.length returns)

theorem emits_all : ∀ es : List Expr, Emits (emitAll es) (fragments es)
  | [] => .id
  | e :: es => e.emits.seq (emits_all es)

end

end Expr

namespace Stmt

variable {condition : Expr} {thenBranch elseBranch : Stmt}

/-- A condition, the jump over the first branch and that branch, before the label of the jump is marked. -/
theorem emit_first (hthen : Emits thenBranch.emit thenBranch.fragment) (code : List Instr) (labels : List (Option Nat)) :
    let c := condition.fragment code.length (labels.length + 1)
    let t := thenBranch.fragment (code.length + c.code.length + 1) (labels.length + 1 + c.targets.length)
    thenBranch.emit ((condition.emit ⟨code, labels ++ [none]⟩).write (.jumpUnless labels.length)) =
      ⟨code ++ (c.code ++ .jumpUnless labels.length :: t.code), labels ++ none :: (c.targets ++ t.targets).map some⟩ := by
  have hlabels : (labels ++ [none]).length = labels.length + 1 := List.length_append
  rw [condition.emits.mk_eq rfl hlabels, Chunk.write]
  generalize condition.fragment code.length (labels.length + 1) = c
  rw [hthen.mk_eq (by simp [Nat.add_assoc] : _ = code.length + c.code.length + 1)
    (by simp; omega : _ = labels.length + 1 + c.targets.length)]
  simp

theorem emits_if (hthen : Emits thenBranch.emit thenBranch.fragment) :
    Emits (branch condition none thenBranch none).emit (branch condition none thenBranch none).fragment := by
  rintro ⟨code, labels⟩
  unfold emit fragment
  simp only [Chunk.newLabel, emit_first hthen, Chunk.mark_unbound]
  generalize condition.fragment code.length (labels.length + 1) = c
  generalize thenBranch.fragment _ _ = t
  simp [Chunk.append, Nat.add_assoc, Nat.add_comm 1]

theorem emits_else (hthen : Emits thenBranch.emit thenBranch.fragment)
    (helse : Emits elseBranch.emit elseBranch.fragment) :
    Emits (branch condition none thenBranch (some elseBranch)).emit
      (branch condition none thenBranch (some elseBranch)).fragment := by
  rintro ⟨code, labels⟩
  unfold emit fragment
  simp only [Chunk.newLabel, emit_first hthen]
  generalize condition.fragment code.length (labels.length + 1) = c
  generalize thenBranch.fragment _ _ = t
  have hexit (first : Option Nat) : (labels ++ first :: (c.targets ++ t.targets).map some).length =
      labels.length + 1 + c.targets.length + t.targets.length := by
    simp
    omega
  simp only [hexit, Chunk.write, List.append_assoc, List.cons_append, Chunk.mark_unbound]
  rw [helse.mk_eq (by simp; omega : _ = code.length + c.code.length + 1 + t.code.length + 1)
    (by simp; omega : _ = labels.length + 1 + c.targets.length + t.targets.length + 1)]
  generalize elseBranch.fragment _ _ = e
  -- the second label stands behind those of the condition and the first branch
  have hmark (code : List Instr) (first : Option Nat) :=
    Chunk.mark_unbound code (labels ++ first :: (c.targets ++ t.targets).map some) (e.targets.map some)
  simp only [hexit, List.append_assoc, List.cons_append, List.nil_append] at hmark ⊢
  rw [hmark]
  simp [Chunk.append]
  omega

mutual

/-- What is written for a statement is its fragment. -/
theorem emits : ∀ s : Stmt, Emits s.emit s.fragment
  | declare _ | empty => .id
  | assign target value => value.emits.write target.store
  | ret value => value.emits.write .ret
  | expr value => by
    intro chunk
    have hpop := value.emits.writeAll (if value.ty.isValue then [.pop] else []) chunk
    unfold emit fragment
    rw [← hpop]
    cases value.ty.isValue <;> rfl
  | block body => emits_all body
  | branch _ (some true) thenBranch _ => thenBranch.emits
  | branch _ (some false) _ elseBranch => emits_option elseBranch
  | branch _ none thenBranch none => emits_if thenBranch.emits
  | branch _ none thenBranch (some elseBranch) => emits_else thenBranch.emits elseBranch.emits

theorem emits_all : ∀ body : List Stmt, Emits (emitAll body) (fragments body)
  | [] => .id
  | s :: body => s.emits.seq (emits_all body)

theorem emits_option : ∀ branch : Option Stmt, Emits (emitOption branch) (optionFragment branch)
  | none => .id
  | some s => s.emits

end

end Stmt

namespace Program

/-- The code of a program is the fragment of its statements and the tail, and its labels are all bound. -/
theorem chunk_eq (p : Program) : p.chunk =
    ⟨(Stmt.fragments p.body 0 0).code ++ tail p.body, (Stmt.fragments p.body 0 0).targets.map some⟩ := by
  rw [chunk, Stmt.emits_all p.body {}, Chunk.writeAll_eq]
  rfl

theorem code_chunk (p : Program) : p.chunk.code = (Stmt.fragments p.body 0 0).code ++ tail p.body := by
  rw [chunk_eq]

theorem labels_chunk (p : Program) : p.chunk.labels = (Stmt.fragments p.body 0 0).targets.map some := by
  rw [chunk_eq]

end Program

end HostScript
