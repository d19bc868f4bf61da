import HostScript.Code.Interchange
import HostScript.Proofs.Json.Text

/-! Artifacts as JSON text are read back.

Each kind of data has two lemmas: its JSON value is `Written`, so the text of that value is read back as
the value, and the value is taken apart into the data it was made of. Numbers that the machine counts
with have to fit in 64 bits (`Artifact.Fits`); handles and integers fit by their types. -/

namespace HostScript
namespace Json

/-! ### Pieces -/

theorem mapM_map_eq_some {α β γ : Type} {f : β → Option γ} {g : α → β} {h : α → γ} :
    ∀ {xs : List α}, (∀ a ∈ xs, f (g a) = some (h a)) → (xs.map g).mapM f = some (xs.map h)
  | [], _ => rfl
  | x :: xs, hxs => by
    have ih := mapM_map_eq_some fun a ha => hxs a (List.mem_cons_of_mem x ha)
    simp [hxs x List.mem_cons_self, ih]

theorem written_ofNat (n : Nat) : Written (ofNat n) := .number (.natural n)

/-- An integer is written as a natural number, with a sign before it if it is negative. -/
theorem ofInt64_cases (n : Int64) :
    (∃ k : Nat, n.toInt = k ∧ ofInt64 n = number (Decimal.digits k)) ∨
      ∃ k : Nat, 0 < k ∧ n.toInt = -k ∧ ofInt64 n = number ('-' :: Decimal.digits k) := by
  unfold ofInt64
  cases h : n.toInt with
  | ofNat k => exact .inl ⟨k, rfl, by rw [Decimal.ofInt, Decimal.ofNat, String.toList_ofList]⟩
  | negSucc k =>
    refine .inr ⟨k + 1, by omega, by omega, ?_⟩
    simp [Decimal.ofInt, Decimal.ofNat]

theorem written_ofInt64 (n : Int64) : Written (ofInt64 n) := by
  rcases ofInt64_cases n with ⟨k, -, h⟩ | ⟨k, -, -, h⟩
  · exact h ▸ .number (.natural k)
  · exact h ▸ .number (.negative k)

theorem written_ofString (text : String) : Written (ofString text) := .string text.toList

theorem written_record {fields : List (String × Json)} (h : ∀ f ∈ fields, Written f.2) : Written (record fields) := by
  refine .object (fun field hfield => ?_) fun field hfield => ?_
  · obtain ⟨⟨name, value⟩, -, rfl⟩ := List.mem_map.mp hfield
    exact ⟨name.toList, rfl⟩
  · obtain ⟨f, hf, rfl⟩ := List.mem_map.mp hfield
    exact h f hf

theorem written_case (name : String) {value : Json} (h : Written value) : Written (case name value) :=
  written_record fun f hf => by
    rw [List.mem_singleton.mp hf]
    exact h

theorem written_array_map {α : Type} {f : α → Json} (h : ∀ a, Written (f a)) (xs : List α) : Written (array (xs.map f)) :=
  .array fun _ hitem => by
    obtain ⟨a, -, rfl⟩ := List.mem_map.mp hitem
    exact h a

theorem all_isDigit_digits (n : Nat) : (Decimal.digits n).all Char.isDigit = true :=
  List.all_eq_true.mpr fun _ hc => isDigit_of_mem_digits hc

theorem value_digits (n : Nat) : Decimal.value (Decimal.digits n) = n := Nat.ofDigitChars_ten_toDigits

theorem nat?_ofNat {n limit : Nat} (h : n < limit) : nat? limit (ofNat n) = some n := by
  simp [nat?, ofNat, all_isDigit_digits, value_digits, h]

theorem int64?_ofInt64 (n : Int64) : int64? (ofInt64 n) = some n := by
  have hlt := n.toInt_lt
  have hge := n.le_toInt
  rcases ofInt64_cases n with ⟨k, hk, h⟩ | ⟨k, hpos, hk, h⟩
  · have hlimit : k < integerLimit := by
      unfold integerLimit
      omega
    have hplain : int64? (number (Decimal.digits k)) = (nat? integerLimit (ofNat k)).map Int64.ofNat := by
      obtain ⟨c, cs, hc, hdigit⟩ := digits_eq_cons k
      rw [ofNat, hc, int64?]
      intro spelling heq
      cases heq
      cases hdigit
    rw [h, hplain, nat?_ofNat hlimit, Option.map_some, ← Int64.ofInt_eq_ofNat, ← hk, Int64.ofInt_toInt]
  · have hlimit : k ≤ integerLimit := by
      unfold integerLimit
      omega
    have hn : Int64.ofInt (-k) = n := by rw [← hk, Int64.ofInt_toInt]
    simp [h, int64?, all_isDigit_digits, value_digits, hpos, hlimit, hn]

theorem string?_ofString (text : String) : string? (ofString text) = some text := by
  rw [ofString, string?, unescape?_escape, String.ofList_toList]

theorem case?_ofString (name : String) : case? (ofString name) = some (name, none) := by
  rw [ofString, case?, unescape?_escape, String.ofList_toList, Option.map_some]

theorem case?_case (name : String) (value : Json) : case? (case name value) = some (name, some value) := by
  simp [case, record, case?, unescape?_escape]

/-- Among fields of different names there is one of each name. -/
theorem filter_eq_singleton : ∀ {fields : List (String × Json)}, (fields.map Prod.fst).Nodup → ∀ {field : String × Json},
    field ∈ fields → fields.filter (·.1 == field.1) = [field]
  | first :: fields, hn, field, hf => by
    obtain ⟨hnew, hn⟩ := List.nodup_cons.mp hn
    rcases List.mem_cons.mp hf with rfl | hf
    · have hnone : fields.filter (·.1 == field.1) = [] := by
        refine List.filter_eq_nil_iff.mpr fun other hother heq => hnew ?_
        rw [← beq_iff_eq.mp heq]
        exact List.mem_map_of_mem hother
      simp [hnone]
    · have hne : ¬(first.1 == field.1) = true := by
        intro heq
        rw [beq_iff_eq.mp heq] at hnew
        exact hnew (List.mem_map_of_mem hf)
      rw [List.filter_cons, if_neg hne, filter_eq_singleton hn hf]

/-- A record is taken apart into the values of its fields. -/
theorem record?_record (fields : List (String × Json)) (hn : (fields.map Prod.fst).Nodup) :
    record? (fields.map Prod.fst) (record fields) = some (fields.map Prod.snd) := by
  simp only [record, record?]
  rw [mapM_map_eq_some (h := id), List.map_id]
  · refine mapM_map_eq_some fun field hfield => ?_
    rw [filter_eq_singleton hn hfield]
  · intro field _
    simp [unescape?_escape]

end Json

open Json

/-! ### Types, values and instructions -/

theorem Ty.written_toJson (ty : Ty) : Written ty.toJson := written_ofString _

theorem Ty.ofJson?_toJson (ty : Ty) : ofJson? ty.toJson = some ty := by
  rw [toJson, ofJson?, case?_ofString]
  cases ty <;> decide

theorem Value.written_toJson (value : Value) : Written value.toJson := by
  cases value with
  | integer n => exact written_case _ (written_ofInt64 n)
  | boolean b => exact written_case _ (.bool b)

theorem Value.ofJson?_toJson (value : Value) : ofJson? value.toJson = some value := by
  cases value with
  | integer n => simp [toJson, ofJson?, case?_case, int64?_ofInt64]
  | boolean b => simp [toJson, ofJson?, case?_case, bool?]

namespace Instr

/-- The numbers that the machine counts with fit in 64 bits. -/
def Fits : Instr → Prop
  | loadParam n | storeParam n | loadLocal n | storeLocal n | jump n | jumpUnless n | call _ n _ => n < sizeLimit
  | _ => True

instance : DecidablePred Fits
  | loadParam n | storeParam n | loadLocal n | storeLocal n | jump n | jumpUnless n | call _ n _ =>
    inferInstanceAs (Decidable (n < sizeLimit))
  | push _ | pop | loadGlobal _ | storeGlobal _ | neg | not | strict _ | ret => inferInstanceAs (Decidable True)

theorem size?_ofNat {n : Nat} (h : n < sizeLimit) : size? (.ofNat n) = some n := nat?_ofNat h

theorem handle?_ofNat (id : UInt32) : handle? (.ofNat id.toNat) = some id := by
  have hlt : id.toNat < handleLimit := id.toNat_lt
  rw [handle?, nat?_ofNat hlt, Option.map_some, Nat.toUInt32, UInt32.ofNat_toNat]

theorem written_operandJson {i : Instr} {operand : Json} (h : i.operandJson = some operand) : Written operand := by
  cases i with
  | strict | pop | neg | not | ret => cases h
  | push value =>
    cases h
    exact value.written_toJson
  | call function argc returns =>
    cases h
    refine written_record fun f hf => ?_
    simp only [List.mem_cons, List.not_mem_nil, or_false] at hf
    rcases hf with rfl | rfl | rfl
    · exact written_ofNat _
    · exact written_ofNat _
    · exact returns.written_toJson
  | _ =>
    cases h
    exact written_ofNat _

theorem written_toJson (i : Instr) : Written i.toJson := by
  unfold toJson
  split
  next operand h => exact written_case _ (written_operandJson h)
  next => exact written_ofString _

/-- Instructions without an operand are found by their mnemonics. -/
theorem find?_bare {i : Instr} (h : i.operandJson = none) : bare.find? (·.mnemonic == i.mnemonic) = some i := by
  cases i with
  | strict op => cases op <;> decide
  | pop | neg | not | ret => decide
  | _ => cases h

/-- Others are not among them. -/
theorem find?_bare_of_operand {i : Instr} {operand : Json} (h : i.operandJson = some operand) :
    bare.find? (·.mnemonic == i.mnemonic) = none := by
  cases i with
  | strict | pop | neg | not | ret => cases h
  | _ => simp [bare, mnemonic, StrictOp.mnemonic]

theorem withOperand?_operandJson {i : Instr} (hfits : i.Fits) {operand : Json} (h : i.operandJson = some operand) :
    withOperand? i.mnemonic operand = some i := by
  cases i with
  | strict | pop | neg | not | ret => cases h
  | push value =>
    cases h
    simp [mnemonic, withOperand?, Value.ofJson?_toJson]
  | loadParam n | storeParam n | loadLocal n | storeLocal n | jump n | jumpUnless n =>
    cases h
    simp [mnemonic, withOperand?, size?_ofNat hfits]
  | loadGlobal handle | storeGlobal handle =>
    cases h
    simp [mnemonic, withOperand?, handle?_ofNat]
  | call function argc returns =>
    cases h
    have hrecord : record? ["function", "argc", "returns"] _ = _ := record?_record
      [("function", .ofNat function.id.toNat), ("argc", .ofNat argc), ("returns", returns.toJson)] (by simp)
    simp [mnemonic, withOperand?, callOfJson?, hrecord, handle?_ofNat, size?_ofNat hfits, Ty.ofJson?_toJson]

theorem ofJson?_toJson {i : Instr} (hfits : i.Fits) : ofJson? i.toJson = some i := by
  unfold toJson
  split
  next operand h =>
    simp only [ofJson?, case?_case, find?_bare_of_operand h, Option.bind_some]
    exact withOperand?_operandJson hfits h
  next h =>
    simp only [ofJson?, case?_ofString, find?_bare h]
    rfl

end Instr

/-! ### Chunks and artifacts -/

theorem Parameter.written_toJson (p : Parameter) : Written p.toJson := by
  refine written_record fun f hf => ?_
  simp only [List.mem_cons, List.not_mem_nil, or_false] at hf
  rcases hf with rfl | rfl
  · exact written_ofString _
  · exact p.ty.written_toJson

theorem Parameter.ofJson?_toJson (p : Parameter) : ofJson? p.toJson = some p := by
  have hrecord : record? ["name", "ty"] p.toJson = _ :=
    record?_record [("name", .ofString p.name), ("ty", p.ty.toJson)] (by simp)
  simp [ofJson?, hrecord, string?_ofString, Ty.ofJson?_toJson]

namespace Chunk

theorem written_targetJson (target : Option Nat) : Written (targetJson target) := by
  cases target with
  | none => exact .null
  | some n => exact written_ofNat n

theorem targetOfJson?_targetJson {target : Option Nat} (h : ∀ n ∈ target, n < sizeLimit) :
    targetOfJson? (targetJson target) = some target := by
  cases target with
  | none => rfl
  | some n =>
    change (nat? sizeLimit (.ofNat n)).map some = _
    rw [nat?_ofNat (h n rfl), Option.map_some]

/-- Operands and targets fit in 64 bits. -/
structure Fits (chunk : Chunk) : Prop where
  code : ∀ i ∈ chunk.code, i.Fits
  labels : ∀ target ∈ chunk.labels, ∀ n ∈ target, n < sizeLimit

theorem written_toJson (chunk : Chunk) : Written chunk.toJson := by
  refine written_record fun f hf => ?_
  simp only [List.mem_cons, List.not_mem_nil, or_false] at hf
  rcases hf with rfl | rfl
  · exact written_array_map Instr.written_toJson chunk.code
  · exact written_array_map written_targetJson chunk.labels

theorem ofJson?_toJson {chunk : Chunk} (h : chunk.Fits) : ofJson? chunk.toJson = some chunk := by
  have hrecord : record? ["code", "labels"] chunk.toJson = _ := record?_record
    [("code", .array (chunk.code.map Instr.toJson)), ("labels", .array (chunk.labels.map targetJson))] (by simp)
  have hcode : (chunk.code.map Instr.toJson).mapM Instr.ofJson? = some (chunk.code.map id) :=
    mapM_map_eq_some fun i hi => Instr.ofJson?_toJson (h.code i hi)
  have hlabels : (chunk.labels.map targetJson).mapM targetOfJson? = some (chunk.labels.map id) :=
    mapM_map_eq_some fun target ht => targetOfJson?_targetJson (h.labels target ht)
  simp [ofJson?, hrecord, items?, hcode, hlabels]

end Chunk

namespace Artifact

/-- All counts, indices, labels and targets fit in 64 bits. -/
structure Fits (a : Artifact) : Prop where
  locals : a.locals < sizeLimit
  chunk : a.chunk.Fits

theorem written_toJson (a : Artifact) : Written a.toJson := by
  refine written_record fun f hf => ?_
  simp only [List.mem_cons, List.not_mem_nil, or_false] at hf
  rcases hf with rfl | rfl | rfl
  · exact written_array_map Parameter.written_toJson a.params
  · exact written_ofNat a.locals
  · exact a.chunk.written_toJson

theorem ofJson?_toJson {a : Artifact} (h : a.Fits) : ofJson? a.toJson = some a := by
  have hrecord : record? ["params", "locals", "chunk"] a.toJson = _ := record?_record
    [("params", .array (a.params.map Parameter.toJson)), ("locals", .ofNat a.locals), ("chunk", a.chunk.toJson)] (by simp)
  have hparams : (a.params.map Parameter.toJson).mapM Parameter.ofJson? = some (a.params.map id) :=
    mapM_map_eq_some fun p _ => p.ofJson?_toJson
  simp [ofJson?, hrecord, items?, hparams, nat?_ofNat h.locals, Chunk.ofJson?_toJson h.chunk]

/-- The text of an artifact is one JSON value, and the artifact is read back from it. -/
theorem text_read_back {a : Artifact} (h : a.Fits) : Json.read? a.text = some a.toJson ∧ ofText? a.text = some a := by
  have hread : Json.read? a.text = some a.toJson := read?_text a.written_toJson
  refine ⟨hread, ?_⟩
  rw [ofText?, hread, Option.bind_some, ofJson?_toJson h]

/-- Names that need every kind of escape, numbers at their bounds, a label that is not bound. -/
def extremes : Artifact where
  params := [⟨"\"quoted\" \\ \x00\x08\t\n\x0c\r\x1f", .integer⟩, ⟨"", .boolean⟩, ⟨"/ \x7f \u00e9 \u2028 😀", .void⟩]
  locals := 18446744073709551615
  chunk := {
    code := [.push (.integer (-9223372036854775808)), .push (.integer 9223372036854775807), .push (.integer 0),
      .push (.boolean true), .pop, .loadParam 0, .storeParam 18446744073709551615, .loadLocal 10, .storeLocal 1,
      .loadGlobal ⟨4294967295⟩, .storeGlobal ⟨0⟩, .neg, .not, .strict .ne, .jump 1, .jumpUnless 18446744073709551615,
      .call ⟨4294967295⟩ 18446744073709551615 .void, .ret]
    labels := [some 0, none, some 18446744073709551615] }

theorem text_read_back_extremes : extremes.Fits ∧ ofText? extremes.text = some extremes := by
  have h : extremes.Fits := ⟨by decide, ⟨by decide, by decide⟩⟩
  exact ⟨h, (text_read_back h).2⟩

end Artifact
end HostScript
