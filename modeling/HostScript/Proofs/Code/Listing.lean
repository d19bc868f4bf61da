import HostScript.Proofs.Code.Fragment
import HostScript.Proofs.Json.Artifacts
import Mathlib.Data.List.Nodup

/-! Listings lose nothing.

The text of a listing parts into lines at its line feeds, a line into address and instruction and an
instruction into mnemonic and operand at blanks, so every part can be told from the text. What the lines
show then gives the chunk back: the instructions in order, and for each label how many instructions stand
before it. -/

namespace HostScript

/-! ### Texts with signs in them -/

/-- Texts that part at a sign which is in neither front. -/
theorem parts_of_sign {c : Char} : ∀ {a b x y : List Char}, c ∉ a → c ∉ b → a ++ c :: x = b ++ c :: y → a = b ∧ x = y
  | [], [], x, y, _, _, h => ⟨rfl, (List.cons.inj h).2⟩
  | [], d :: b, x, y, _, hb, h => absurd ((List.cons.inj h).1 ▸ List.mem_cons_self) hb
  | d :: a, [], x, y, ha, _, h => absurd ((List.cons.inj h).1 ▸ List.mem_cons_self) ha
  | d :: a, e :: b, x, y, ha, hb, h => by
    obtain ⟨rfl, hrest⟩ := List.cons.inj h
    obtain ⟨rfl, hxy⟩ := parts_of_sign (mt (List.mem_cons_of_mem d) ha) (mt (List.mem_cons_of_mem d) hb) hrest
    exact ⟨rfl, hxy⟩

/-- Lines that are not empty and hold no line feed are what stands between the line feeds. -/
theorem filter_splitOn_lines {lines : List String} (h : ∀ line ∈ lines, line ≠ "" ∧ '\n' ∉ line.toList) :
    (("\n".intercalate lines).toList.splitOn '\n').filter (!·.isEmpty) = lines.map String.toList := by
  have hlines : ∀ text ∈ lines.map String.toList, text ≠ [] ∧ '\n' ∉ text := by
    simpa using h
  rw [String.toList_intercalate]
  change ((['\n'].intercalate _).splitOn '\n').filter _ = _
  cases lines with
  | nil => rfl
  | cons line lines =>
    rw [List.splitOn_intercalate '\n' (fun text ht => (hlines text ht).2) (by simp)]
    refine List.filter_eq_self.mpr fun text ht => ?_
    simpa using (hlines text ht).1

namespace Decimal

theorem ofNat_inj {m n : Nat} (h : ofNat m = ofNat n) : m = n := by
  rw [← Json.value_digits m, ← Json.value_digits n, String.ofList_injective h]

theorem isDigit_of_mem_ofNat {c : Char} {n : Nat} (h : c ∈ (ofNat n).toList) : c.isDigit := by
  rw [ofNat, String.toList_ofList] at h
  exact Json.isDigit_of_mem_digits h

theorem not_mem_ofNat {c : Char} (hc : c.isDigit = false) (n : Nat) : c ∉ (ofNat n).toList := by
  intro hmem
  rw [isDigit_of_mem_ofNat hmem] at hc
  cases hc

/-- Digits only. -/
theorem isDigit_of_mem_padded {c : Char} {width n : Nat} (h : c ∈ (padded width n).toList) : c.isDigit := by
  rw [padded, String.toList_ofList, List.mem_append] at h
  rcases h with h | h
  · rw [(List.mem_replicate.mp h).2]
    rfl
  · exact Json.isDigit_of_mem_digits h

theorem value_padded (width n : Nat) : value (padded width n).toList = n := by
  rw [padded, String.toList_ofList, value, Nat.ofDigitChars_append, Nat.ofDigitChars_replicate_zero, Nat.mul_zero]
  exact Json.value_digits n

theorem ofInt_inj {a b : Int} (h : ofInt a = ofInt b) : a = b := by
  have hsign (m n : Nat) : ofNat m ≠ "-" ++ ofNat n := by
    intro heq
    refine not_mem_ofNat (c := '-') rfl m ?_
    simp [heq]
  cases a with
  | ofNat m =>
    cases b with
    | ofNat n => rw [ofNat_inj h]
    | negSucc n => exact absurd h (hsign m (n + 1))
  | negSucc m =>
    cases b with
    | ofNat n => exact absurd h.symm (hsign n (m + 1))
    | negSucc n =>
      have heq : m + 1 = n + 1 := ofNat_inj ((String.append_right_inj "-").mp h)
      rw [Nat.succ.inj heq]

theorem not_mem_ofInt {c : Char} (hd : c.isDigit = false) (hs : c ≠ '-') (n : Int) : c ∉ (ofInt n).toList := by
  cases n with
  | ofNat n => exact not_mem_ofNat hd n
  | negSucc n => simp [ofInt, hs, not_mem_ofNat hd]

end Decimal

/-- Handles of either kind are told by their numbers. -/
theorem handleId_inj {a b : UInt32} (h : "#" ++ Decimal.ofNat a.toNat = "#" ++ Decimal.ofNat b.toNat) : a = b :=
  UInt32.toNat_inj.mp (Decimal.ofNat_inj ((String.append_right_inj "#").mp h))

theorem GlobalHandle.text_inj {g h : GlobalHandle} (heq : g.text = h.text) : g = h :=
  congrArg GlobalHandle.mk (handleId_inj heq)

theorem FunctionHandle.text_inj {f g : FunctionHandle} (heq : f.text = g.text) : f = g :=
  congrArg FunctionHandle.mk (handleId_inj heq)

theorem FunctionHandle.not_mem_text {c : Char} (hd : c.isDigit = false) (hs : c ≠ '#') (f : FunctionHandle) :
    c ∉ f.text.toList := by
  simp [text, hs, Decimal.not_mem_ofNat hd]

theorem Ty.text_inj {s t : Ty} (h : s.text = t.text) : s = t := by
  revert h
  cases s <;> cases t <;> decide

theorem Value.text_inj {v w : Value} (h : v.text = w.text) : v = w := by
  -- both booleans have a letter in common that no number has
  have hletter (n : Int64) (b : Bool) : (integer n).text ≠ (boolean b).text := by
    intro heq
    refine Decimal.not_mem_ofInt (c := 'e') rfl (by decide) n.toInt ?_
    rw [show Decimal.ofInt n.toInt = (boolean b).text from heq]
    cases b <;> decide
  cases v with
  | integer m =>
    cases w with
    | integer n => rw [Int64.toInt_inj.mp (Decimal.ofInt_inj h)]
    | boolean b => exact absurd h (hletter m b)
  | boolean a =>
    cases w with
    | integer n => exact absurd h.symm (hletter n a)
    | boolean b =>
      revert h
      cases a <;> cases b <;> decide

/-! ### Instructions -/

namespace Instr

/-- The instruction with a fixed operand in the place of its own. -/
def form : Instr → Instr
  | push _ => push (.boolean false)
  | loadParam _ => loadParam 0
  | storeParam _ => storeParam 0
  | loadLocal _ => loadLocal 0
  | storeLocal _ => storeLocal 0
  | loadGlobal _ => loadGlobal ⟨0⟩
  | storeGlobal _ => storeGlobal ⟨0⟩
  | jump _ => jump 0
  | jumpUnless _ => jumpUnless 0
  | call .. => call ⟨0⟩ 0 .void
  | i => i

/-- One instruction for each mnemonic. -/
def forms : List Instr :=
  [push (.boolean false), loadParam 0, storeParam 0, loadLocal 0, storeLocal 0, loadGlobal ⟨0⟩, storeGlobal ⟨0⟩, jump 0,
    jumpUnless 0, call ⟨0⟩ 0 .void] ++ bare

theorem form_mem_forms (i : Instr) : i.form ∈ forms := by
  cases i with
  | strict op => cases op <;> decide
  | _ => simp [form, forms, bare]

theorem mnemonic_form (i : Instr) : i.form.mnemonic = i.mnemonic := by
  cases i <;> rfl

theorem form_eq_of_mnemonic_eq {i j : Instr} (h : i.mnemonic = j.mnemonic) : i.form = j.form := by
  have hnodup : (forms.map mnemonic).Nodup := by decide +kernel
  refine List.inj_on_of_nodup_map hnodup i.form_mem_forms j.form_mem_forms ?_
  rw [mnemonic_form, mnemonic_form, h]

/-- Mnemonics are made of letters. -/
theorem isAlpha_of_mem_mnemonic {c : Char} {i : Instr} (h : c ∈ i.mnemonic.toList) : c.isAlpha := by
  have hall : forms.all (·.mnemonic.toList.all Char.isAlpha) := by decide +kernel
  have hform := List.all_eq_true.mp hall i.form i.form_mem_forms
  rw [mnemonic_form] at hform
  exact List.all_eq_true.mp hform c h

/-- The operand stands behind the blank. -/
theorem parts_of_text {i j : Instr} (h : i.text = j.text) : i.mnemonic = j.mnemonic ∧ i.operandText = j.operandText := by
  have hblank (k : Instr) : ' ' ∉ k.mnemonic.toList := fun hmem => absurd (isAlpha_of_mem_mnemonic hmem) (by decide)
  have htext (k : Instr) : k.text.toList =
      k.mnemonic.toList ++ (k.operandText.elim [] fun operand => ' ' :: operand.toList) := by
    unfold text
    cases k.operandText <;> simp
  have hlists := congrArg String.toList h
  rw [htext, htext] at hlists
  cases hi : i.operandText with
  | none =>
    cases hj : j.operandText with
    | none =>
      simp only [hi, hj, Option.elim_none, List.append_nil] at hlists
      exact ⟨String.toList_inj.mp hlists, rfl⟩
    | some b =>
      simp only [hi, hj, Option.elim_none, Option.elim_some, List.append_nil] at hlists
      exact absurd (hlists ▸ by simp) (hblank i)
  | some a =>
    cases hj : j.operandText with
    | none =>
      simp only [hi, hj, Option.elim_none, Option.elim_some, List.append_nil] at hlists
      exact absurd (hlists ▸ by simp) (hblank j)
    | some b =>
      simp only [hi, hj, Option.elim_some] at hlists
      obtain ⟨hm, ho⟩ := parts_of_sign (hblank i) (hblank j) hlists
      exact ⟨String.toList_inj.mp hm, congrArg some (String.toList_inj.mp ho)⟩

theorem callText_inj {f f' : FunctionHandle} {n n' : Nat} {t t' : Ty}
    (h : f.text ++ "/" ++ Decimal.ofNat n ++ " -> " ++ t.text = f'.text ++ "/" ++ Decimal.ofNat n' ++ " -> " ++ t'.text) :
    f = f' ∧ n = n' ∧ t = t' := by
  have hlists := congrArg String.toList h
  simp only [String.toList_append, List.append_assoc] at hlists
  obtain ⟨hf, hrest⟩ := parts_of_sign (c := '/') (f.not_mem_text rfl (by decide)) (f'.not_mem_text rfl (by decide)) hlists
  obtain ⟨hn, hrest⟩ := parts_of_sign (c := ' ') (Decimal.not_mem_ofNat rfl n) (Decimal.not_mem_ofNat rfl n') hrest
  have ht : "-> ".toList ++ t.text.toList = "-> ".toList ++ t'.text.toList := hrest
  exact ⟨FunctionHandle.text_inj (String.toList_inj.mp hf), Decimal.ofNat_inj (String.toList_inj.mp hn),
    Ty.text_inj (String.toList_inj.mp (List.append_cancel_left ht))⟩

/-- An instruction is told by its text. -/
theorem text_inj {i j : Instr} (h : i.text = j.text) : i = j := by
  obtain ⟨hm, ho⟩ := parts_of_text h
  have hform := form_eq_of_mnemonic_eq hm
  cases i with
  | pop | neg | not | ret | strict op =>
    cases j <;> cases hform
    rfl
  | push value =>
    cases j <;> cases hform
    rw [Value.text_inj (Option.some.inj ho)]
  | loadParam n | storeParam n | loadLocal n | storeLocal n =>
    cases j <;> cases hform
    rw [Decimal.ofNat_inj (Option.some.inj ho)]
  | loadGlobal handle | storeGlobal handle =>
    cases j <;> cases hform
    rw [GlobalHandle.text_inj (Option.some.inj ho)]
  | jump label | jumpUnless label =>
    cases j <;> cases hform
    rw [Decimal.ofNat_inj ((String.append_right_inj "L").mp (Option.some.inj ho))]
  | call function argc returns =>
    cases j <;> cases hform
    obtain ⟨rfl, rfl, rfl⟩ := callText_inj (Option.some.inj ho)
    rfl

/-- No instruction breaks its line. -/
theorem not_mem_text {i : Instr} : '\n' ∉ i.text.toList := by
  have hmnemonic : '\n' ∉ i.mnemonic.toList := fun hmem => absurd (isAlpha_of_mem_mnemonic hmem) (by decide)
  have hoperand : ∀ operand ∈ i.operandText, '\n' ∉ operand.toList := by
    intro operand hop
    have hnumber (n : Nat) : '\n' ∉ (Decimal.ofNat n).toList := Decimal.not_mem_ofNat rfl n
    cases i with
    | pop | neg | not | ret | strict => cases hop
    | push value =>
      cases hop
      rcases value with n | (_ | _)
      · exact Decimal.not_mem_ofInt rfl (by decide) n.toInt
      · decide
      · decide
    | loadParam n | storeParam n | loadLocal n | storeLocal n =>
      cases hop
      exact hnumber n
    | loadGlobal handle | storeGlobal handle =>
      cases hop
      simp [GlobalHandle.text, hnumber]
    | jump label | jumpUnless label =>
      cases hop
      simp [hnumber]
    | call function argc returns =>
      cases hop
      cases returns <;> simp [hnumber, FunctionHandle.not_mem_text, Ty.text]
  unfold text
  cases h : i.operandText with
  | none => exact hmnemonic
  | some operand => simp [hmnemonic, hoperand operand h]

end Instr

/-! ### Lines -/

/-- A line of a listing. -/
inductive ListingLine where
  | label (l : Label)
  | instr (address : Nat) (i : Instr)
  deriving DecidableEq

namespace ListingLine

/-- The line as it is printed. -/
def text : ListingLine → String
  | label l => "L" ++ Decimal.ofNat l ++ ":"
  | instr address i => Decimal.padded 4 address ++ "  " ++ i.text

/-- The instruction on the line, with its address. -/
def instr? : ListingLine → Option (Instr × Nat)
  | label _ => none
  | instr address i => some (i, address)

theorem text_instr (address : Nat) (i : Instr) :
    (instr address i).text.toList = (Decimal.padded 4 address).toList ++ ' ' :: ' ' :: i.text.toList := by
  simp [text]

/-- No label is shown as an instruction is: the line of an instruction has a blank. -/
theorem text_label_ne_instr (l : Label) (address : Nat) (i : Instr) : (label l).text ≠ (instr address i).text := by
  intro h
  have hmem : ' ' ∈ (label l).text.toList := by
    rw [h, text_instr]
    simp
  simp [text, Decimal.not_mem_ofNat] at hmem

/-- A line is told by its text. -/
theorem text_inj {x y : ListingLine} (h : x.text = y.text) : x = y := by
  cases x with
  | label l =>
    cases y with
    | label k => rw [Decimal.ofNat_inj ((String.append_right_inj "L").mp ((String.append_left_inj ":").mp h))]
    | instr address i => exact absurd h (text_label_ne_instr l address i)
  | instr address i =>
    cases y with
    | label l => exact absurd h.symm (text_label_ne_instr l address i)
    | instr address' i' =>
      have hblank (n : Nat) : ' ' ∉ (Decimal.padded 4 n).toList := fun hmem =>
        absurd (Decimal.isDigit_of_mem_padded hmem) (by decide)
      have hlists := congrArg String.toList h
      rw [text_instr, text_instr] at hlists
      obtain ⟨haddress, hrest⟩ := parts_of_sign (hblank address) (hblank address') hlists
      have hi : i = i' := Instr.text_inj (String.toList_inj.mp (List.cons.inj hrest).2)
      rw [hi, ← Decimal.value_padded 4 address, ← Decimal.value_padded 4 address', haddress]

/-- A line has a text, without a line feed in it. -/
theorem text_line (x : ListingLine) : x.text ≠ "" ∧ '\n' ∉ x.text.toList := by
  cases x with
  | label l => simp [text, Decimal.not_mem_ofNat, ← String.toList_inj]
  | instr address i =>
    have hdigits : '\n' ∉ (Decimal.padded 4 address).toList := fun hmem =>
      absurd (Decimal.isDigit_of_mem_padded hmem) (by decide)
    rw [← String.toList_inj.ne, text_instr]
    simp [hdigits, Instr.not_mem_text]

end ListingLine

/-! ### The lines of a chunk -/

namespace Chunk

variable {chunk : Chunk} {l : Label} {t a : Nat}

/-- The labels bound to an address, in order. -/
def labelsAt (chunk : Chunk) (address : Nat) : List Label :=
  (chunk.labels.zipIdx.filter (·.1 = some address)).map Prod.snd

/-- The lines for the code from an address on. -/
def linesFrom (chunk : Chunk) : Nat → List Instr → List ListingLine
  | address, [] => (chunk.labelsAt address).map .label
  | address, i :: code =>
    (chunk.labelsAt address).map .label ++ .instr address i :: chunk.linesFrom (address + 1) code

/-- All lines of the chunk. -/
def lines (chunk : Chunk) : List ListingLine := chunk.linesFrom 0 chunk.code

theorem target?_eq_some : chunk.target? l = some t ↔ chunk.labels[l]? = some (some t) := by
  unfold target?
  cases chunk.labels[l]? with
  | none => simp
  | some target => cases target <;> simp

theorem mem_labelsAt : l ∈ chunk.labelsAt t ↔ chunk.target? l = some t := by
  simp [labelsAt, target?_eq_some, List.mem_zipIdx_iff_getElem?]

theorem nodup_labelsAt : (chunk.labelsAt t).Nodup := by
  have hall : (chunk.labels.zipIdx.map Prod.snd).Nodup := by
    rw [List.zipIdx_map_snd]
    exact List.nodup_range'
  exact hall.sublist (List.filter_sublist.map Prod.snd)

theorem labelLines_eq (address : Nat) : ∀ (labels : List (Option Nat)) (k : Label), labelLines address k labels =
    ((labels.zipIdx k).filter (·.1 = some address)).map fun bound => (ListingLine.label bound.2).text
  | [], k => rfl
  | target :: labels, k => by
    rw [labelLines, labelLines_eq address labels, List.zipIdx_cons]
    by_cases ht : target = some address <;> simp [ht, ListingLine.text]

theorem codeLines_eq (chunk : Chunk) : ∀ (code : List Instr) (a : Nat),
    codeLines chunk.labels a code = (chunk.linesFrom a code).map ListingLine.text
  | [], a => by simp [codeLines, linesFrom, labelLines_eq, labelsAt, Function.comp_def]
  | i :: code, a => by
    simp [codeLines, linesFrom, labelLines_eq, labelsAt, Function.comp_def, chunk.codeLines_eq code, ListingLine.text]

theorem listing_eq (chunk : Chunk) : chunk.listing = "\n".intercalate (chunk.lines.map ListingLine.text) := by
  rw [listing, codeLines_eq, lines]

/-- Two chunks with the same listing have the same lines. -/
theorem lines_eq_of_listing_eq {c d : Chunk} (h : c.listing = d.listing) : c.lines = d.lines := by
  have hback (chunk : Chunk) : (chunk.listing.toList.splitOn '\n').filter (!·.isEmpty) =
      (chunk.lines.map ListingLine.text).map String.toList := by
    rw [listing_eq]
    refine filter_splitOn_lines fun line hline => ?_
    obtain ⟨x, -, rfl⟩ := List.mem_map.mp hline
    exact x.text_line
  have htexts := hback c
  rw [h, hback d, List.map_map, List.map_map] at htexts
  exact ((List.map_inj_right fun x y hxy => ListingLine.text_inj (String.toList_inj.mp hxy)).mp htexts).symm

/-! ### What the lines show -/

theorem filterMap_labels (labels : List Label) : (labels.map ListingLine.label).filterMap ListingLine.instr? = [] := by
  simp [ListingLine.instr?]

/-- The instructions are shown in order, each at its address. -/
theorem filterMap_linesFrom (chunk : Chunk) : ∀ (code : List Instr) (a : Nat),
    (chunk.linesFrom a code).filterMap ListingLine.instr? = code.zipIdx a
  | [], a => filterMap_labels _
  | i :: code, a => by
    rw [linesFrom, List.filterMap_append, filterMap_labels, List.filterMap_cons, List.zipIdx_cons,
      filterMap_linesFrom chunk code (a + 1)]
    rfl

theorem le_of_mem_linesFrom {code : List Instr} {i : Instr} {b : Nat} (h : .instr b i ∈ chunk.linesFrom a code) : a ≤ b := by
  have hmem : (i, b) ∈ (chunk.linesFrom a code).filterMap ListingLine.instr? := List.mem_filterMap.mpr ⟨_, h, rfl⟩
  rw [filterMap_linesFrom] at hmem
  exact List.le_snd_of_mem_zipIdx hmem

theorem mem_map_label : .label l ∈ (chunk.labelsAt t).map ListingLine.label ↔ chunk.target? l = some t := by
  simp [mem_labelsAt]

/-- A label is shown if it is bound to one of the addresses or to the end. -/
theorem mem_linesFrom : ∀ {code : List Instr} {a : Nat}, .label l ∈ chunk.linesFrom a code ↔
    ∃ t, chunk.target? l = some t ∧ a ≤ t ∧ t ≤ a + code.length
  | [], a => by
    rw [linesFrom, mem_map_label]
    refine ⟨fun h => ⟨a, h, Nat.le_refl a, Nat.le_refl a⟩, fun ⟨t, h, hle, hge⟩ => ?_⟩
    rw [h, Nat.le_antisymm hle hge]
  | i :: code, a => by
    rw [linesFrom, List.mem_append, mem_map_label, List.mem_cons, mem_linesFrom, List.length_cons]
    constructor
    · rintro (h | h | ⟨t, h, hle, hge⟩)
      · exact ⟨a, h, Nat.le_refl a, by omega⟩
      · cases h
      · exact ⟨t, h, by omega, by omega⟩
    · rintro ⟨t, h, hle, hge⟩
      rcases Nat.eq_or_lt_of_le hle with rfl | hlt
      · exact .inl h
      · exact .inr (.inr ⟨t, h, hlt, by omega⟩)

/-- No line is shown twice. -/
theorem nodup_linesFrom : ∀ (code : List Instr) (a : Nat), (chunk.linesFrom a code).Nodup
  | [], a => nodup_labelsAt.map fun _ _ h => ListingLine.label.inj h
  | i :: code, a => by
    refine List.nodup_append.mpr ⟨nodup_labelsAt.map fun _ _ h => ListingLine.label.inj h,
      List.nodup_cons.mpr ⟨fun hmem => ?_, nodup_linesFrom code (a + 1)⟩, fun x hx y hy => ?_⟩
    · exact absurd (le_of_mem_linesFrom hmem) (Nat.not_succ_le_self a)
    · -- a label that is bound here is not bound behind
      rintro rfl
      obtain ⟨l, hl, rfl⟩ := List.mem_map.mp hx
      obtain ⟨t, ht, hle, -⟩ := mem_linesFrom.mp ((List.mem_cons.mp hy).resolve_left (by simp))
      rw [mem_labelsAt.mp hl] at ht
      cases ht
      exact absurd hle (Nat.not_succ_le_self a)

theorem linesFrom_eq (chunk : Chunk) (code : List Instr) (a : Nat) : ∃ behind,
    chunk.linesFrom a code = (chunk.labelsAt a).map .label ++ behind ∧ behind.head? = code[0]?.map (.instr a) := by
  cases code with
  | nil => exact ⟨[], (List.append_nil _).symm, rfl⟩
  | cons i code => exact ⟨_, rfl, rfl⟩

/-- Before a label stand the instructions up to its target, and behind it, after other labels at most, the
    one that is its target. -/
theorem linesFrom_split (h : chunk.target? l = some t) : ∀ {code : List Instr} {a : Nat}, a ≤ t → t ≤ a + code.length →
    ∃ before others behind, chunk.linesFrom a code = before ++ .label l :: (others ++ behind) ∧
      before.filterMap ListingLine.instr? = (code.zipIdx a).take (t - a) ∧
      others.filterMap ListingLine.instr? = [] ∧ behind.head? = code[t - a]?.map (.instr t)
  | code, a, hle, hge => by
    rcases Nat.eq_or_lt_of_le hle with rfl | hlt
    · obtain ⟨before, others, hlabels⟩ := List.append_of_mem (mem_labelsAt.mpr h)
      obtain ⟨behind, hlines, hhead⟩ := chunk.linesFrom_eq code a
      refine ⟨before.map .label, others.map .label, behind, ?_, ?_, filterMap_labels others, ?_⟩
      · rw [hlines, hlabels]
        simp
      · rw [filterMap_labels, Nat.sub_self, List.take_zero]
      · rw [hhead, Nat.sub_self]
    · cases code with
      | nil => exact absurd hge (Nat.not_le_of_lt hlt)
      | cons i code =>
        have hge : t ≤ a + 1 + code.length := by
          rw [List.length_cons] at hge
          omega
        obtain ⟨before, others, behind, hlines, hbefore, hothers, hbehind⟩ := linesFrom_split h hlt hge
        have hstep : t - a = t - (a + 1) + 1 := by omega
        refine ⟨(chunk.labelsAt a).map .label ++ .instr a i :: before, others, behind, ?_, ?_, hothers, ?_⟩
        · rw [linesFrom, hlines]
          simp
        · rw [List.filterMap_append, filterMap_labels, List.filterMap_cons, hbefore, hstep, List.zipIdx_cons,
            List.take_succ_cons]
          rfl
        · rw [hbehind, hstep, List.getElem?_cons_succ]

/-- Every label is bound, to an address in the code or to its end. -/
def Bound (chunk : Chunk) : Prop := ∀ target ∈ chunk.labels, target.any (· ≤ chunk.code.length)

instance : DecidablePred Bound := fun chunk =>
  inferInstanceAs (Decidable (∀ target ∈ chunk.labels, target.any (· ≤ chunk.code.length)))

theorem Bound.target (h : chunk.Bound) (hl : l < chunk.labels.length) :
    ∃ t ≤ chunk.code.length, chunk.target? l = some t := by
  have hbound := h chunk.labels[l] (List.getElem_mem hl)
  cases htarget : chunk.labels[l] with
  | none =>
    rw [htarget] at hbound
    cases hbound
  | some t =>
    rw [htarget] at hbound
    exact ⟨t, of_decide_eq_true hbound, target?_eq_some.mpr (List.getElem?_eq_some_iff.mpr ⟨hl, htarget⟩)⟩

theorem lt_of_target? (h : chunk.target? l = some t) : l < chunk.labels.length :=
  (List.getElem?_eq_some_iff.mp (target?_eq_some.mp h)).1

/-- How a listing shows a chunk: each instruction once, in order, and each label once. Before a label stand
    the instructions up to its target, and behind it, after other labels at most, the one that is its
    target, if it is not bound to the end. -/
structure Shown (chunk : Chunk) (lines : List ListingLine) : Prop where
  text : chunk.listing = "\n".intercalate (lines.map ListingLine.text)
  instrs : lines.filterMap ListingLine.instr? = chunk.code.zipIdx
  labels : ∀ l, .label l ∈ lines ↔ l < chunk.labels.length
  once : lines.Nodup
  targets : ∀ l < chunk.labels.length, ∃ t ≤ chunk.code.length, ∃ before others behind, chunk.target? l = some t ∧
    lines = before ++ .label l :: (others ++ behind) ∧
    before.filterMap ListingLine.instr? = chunk.code.zipIdx.take t ∧
    others.filterMap ListingLine.instr? = [] ∧ behind.head? = chunk.code[t]?.map (.instr t)

theorem Bound.shown (h : chunk.Bound) : chunk.Shown chunk.lines where
  text := chunk.listing_eq
  instrs := chunk.filterMap_linesFrom chunk.code 0
  labels l := by
    rw [lines, mem_linesFrom]
    refine ⟨fun ⟨t, ht, _⟩ => lt_of_target? ht, fun hl => ?_⟩
    obtain ⟨t, hle, ht⟩ := h.target hl
    exact ⟨t, ht, Nat.zero_le t, by omega⟩
  once := nodup_linesFrom chunk.code 0
  targets l hl := by
    obtain ⟨t, hle, ht⟩ := h.target hl
    have hend : t ≤ 0 + chunk.code.length := by omega
    obtain ⟨before, others, behind, hsplit⟩ := linesFrom_split ht (Nat.zero_le t) hend
    exact ⟨t, hle, before, others, behind, ht, hsplit⟩

namespace Shown

variable {c d : Chunk} {shown : List ListingLine}

/-- The target of a label is the number of instructions before it. -/
theorem target?_eq (hc : c.Shown shown) (hd : d.Shown shown) (hl : l < c.labels.length) : c.target? l = d.target? l := by
  have hl' : l < d.labels.length := (hd.labels l).mp ((hc.labels l).mpr hl)
  obtain ⟨t, ht, before, others, behind, htarget, hlines, hbefore, -⟩ := hc.targets l hl
  obtain ⟨t', ht', before', others', behind', htarget', hlines', hbefore', -⟩ := hd.targets l hl'
  -- the label is shown once, so it parts the lines in one way
  have honce := hc.once
  rw [hlines, List.nodup_append] at honce
  obtain ⟨-, hbehind, hapart⟩ := honce
  have hfirst : .label l ∉ before := fun hmem => hapart _ hmem _ List.mem_cons_self rfl
  obtain ⟨heq, -⟩ := (List.append_cons_inj_of_notMem hfirst (List.nodup_cons.mp hbehind).1).mp (hlines.symm.trans hlines')
  have hlength : (c.code.zipIdx.take t).length = (d.code.zipIdx.take t').length := by rw [← hbefore, ← hbefore', heq]
  rw [List.length_take, List.length_take, List.length_zipIdx, List.length_zipIdx, Nat.min_eq_left ht,
    Nat.min_eq_left ht'] at hlength
  rw [htarget, htarget', hlength]

/-- What is shown determines the chunk. -/
theorem eq (hc : c.Shown shown) (hd : d.Shown shown) : c = d := by
  have hcode : c.code = d.code := by
    rw [← List.zipIdx_map_fst 0 c.code, ← List.zipIdx_map_fst 0 d.code, ← hc.instrs, hd.instrs]
  have hlabels : c.labels = d.labels := by
    refine List.ext_getElem? fun l => ?_
    by_cases hl : l < c.labels.length
    · obtain ⟨t, -, -, -, -, htarget, -⟩ := hc.targets l hl
      rw [target?_eq_some.mp htarget, target?_eq_some.mp (hc.target?_eq hd hl ▸ htarget)]
    · have hl' : ¬l < d.labels.length := fun h => hl ((hc.labels l).mp ((hd.labels l).mpr h))
      rw [List.getElem?_eq_none (Nat.le_of_not_lt hl), List.getElem?_eq_none (Nat.le_of_not_lt hl')]
  obtain ⟨code, labels⟩ := c
  cases hcode
  cases hlabels
  rfl

end Shown

end Chunk

/-! ### Compiled chunks -/

/-- No target is larger than `last`. -/
def UpTo (last : Nat) (targets : List Nat) : Prop := ∀ t ∈ targets, t ≤ last

namespace UpTo

variable {last last' t : Nat} {as bs : List Nat}

theorem nil : UpTo last [] := List.forall_mem_nil _

theorem cons (ht : t ≤ last) (h : UpTo last as) : UpTo last (t :: as) := List.forall_mem_cons.mpr ⟨ht, h⟩

theorem append (ha : UpTo last as) (hb : UpTo last bs) : UpTo last (as ++ bs) := List.forall_mem_append.mpr ⟨ha, hb⟩

theorem mono (h : UpTo last as) (hle : last ≤ last') : UpTo last' as := fun t ht => Nat.le_trans (h t ht) hle

end UpTo

namespace Expr

mutual

/-- The labels of an expression are bound up to the end of its code. -/
theorem targets_upTo : ∀ (e : Expr) (address : Nat) (label : Label),
    UpTo (address + (e.fragment address label).code.length) (e.fragment address label).targets
  | const _, address, label => .nil
  | var _, address, label => .nil
  | unary op operand, address, label => by
    unfold fragment
    exact (targets_upTo operand address label).mono (by simp)
  | strict op left right, address, label => by
    unfold fragment
    simp only [List.length_append]
    exact .append ((targets_upTo left _ _).mono (by omega)) ((targets_upTo right _ _).mono (by omega))
  | logical .or left right, address, label | logical .and left right, address, label => by
    unfold fragment
    simp only [List.length_append, List.length_cons, List.length_nil]
    refine .cons (by omega) (.cons (by omega) ?_)
    exact .append ((targets_upTo left _ _).mono (by omega)) ((targets_upTo right _ _).mono (by omega))
  | call _ _ _ args, address, label => by
    unfold fragment
    exact (targets_upTo_all args address label).mono (by simp)

theorem targets_upTo_all : ∀ (args : List Expr) (address : Nat) (label : Label),
    UpTo (address + (fragments args address label).code.length) (fragments args address label).targets
  | [], address, label => .nil
  | e :: es, address, label => by
    unfold fragments
    simp only [List.length_append]
    exact .append ((targets_upTo e _ _).mono (by omega)) ((targets_upTo_all es _ _).mono (by omega))

end

end Expr

namespace Stmt

mutual

theorem targets_upTo : ∀ (s : Stmt) (address : Nat) (label : Label),
    UpTo (address + (s.fragment address label).code.length) (s.fragment address label).targets
  | declare _, address, label => .nil
  | empty, address, label => .nil
  | assign _ value, address, label | ret value, address, label | expr value, address, label => by
    unfold fragment
    exact (value.targets_upTo address label).mono (by simp)
  | block body, address, label => by
    unfold fragment
    exact targets_upTo_all body address label
  | branch _ (some true) thenBranch _, address, label => by
    unfold fragment
    exact targets_upTo thenBranch address label
  | branch _ (some false) _ elseBranch, address, label => by
    unfold fragment
    exact targets_upTo_option elseBranch address label
  | branch condition none thenBranch none, address, label => by
    unfold fragment
    simp only [List.length_append, List.length_singleton]
    refine .cons (by omega) ?_
    exact .append ((condition.targets_upTo _ _).mono (by omega)) ((targets_upTo thenBranch _ _).mono (by omega))
  | branch condition none thenBranch (some elseBranch), address, label => by
    unfold fragment
    simp only [List.length_append, List.length_singleton]
    refine .cons (by omega) (.append (.append ((condition.targets_upTo _ _).mono (by omega)) ?_) (.cons (by omega) ?_))
    · exact (targets_upTo thenBranch _ _).mono (by omega)
    · exact (targets_upTo elseBranch _ _).mono (by omega)

theorem targets_upTo_all : ∀ (body : List Stmt) (address : Nat) (label : Label),
    UpTo (address + (fragments body address label).code.length) (fragments body address label).targets
  | [], address, label => .nil
  | s :: body, address, label => by
    unfold fragments
    simp only [List.length_append]
    exact .append ((targets_upTo s _ _).mono (by omega)) ((targets_upTo_all body _ _).mono (by omega))

theorem targets_upTo_option : ∀ (branch : Option Stmt) (address : Nat) (label : Label),
    UpTo (address + (optionFragment branch address label).code.length) (optionFragment branch address label).targets
  | none, address, label => .nil
  | some s, address, label => by
    unfold optionFragment
    exact targets_upTo s address label

end

end Stmt

theorem Program.bound_chunk (p : Program) : p.chunk.Bound := by
  intro target htarget
  rw [p.labels_chunk] at htarget
  obtain ⟨t, ht, rfl⟩ := List.mem_map.mp htarget
  have hle := Stmt.targets_upTo_all p.body 0 0 t ht
  simp only [p.code_chunk, Option.any_some, List.length_append, decide_eq_true_eq]
  omega

/-- Chunks whose labels are all bound, as those of programs are, are told apart by their listings, which show
    every instruction and every label of them. -/
theorem Chunk.listing_determines {c d : Chunk} (hc : c.Bound) (hd : d.Bound) :
    (c.listing = d.listing → c = d) ∧ c.Shown c.lines ∧ ∀ p : Program, p.chunk.Bound := by
  refine ⟨fun h => ?_, hc.shown, Program.bound_chunk⟩
  have hlines := lines_eq_of_listing_eq h
  exact hc.shown.eq (hlines ▸ hd.shown)

/-- Two labels at one address and one at the end, in the two orders. -/
def Chunk.crossed (first second : Nat) : Chunk :=
  ⟨[.push (.integer (-4)), .jump 1, .call ⟨2⟩ 10 .void, .strict .ne], [some first, some second, some first]⟩

/-- Labels that trade their targets are listed in other places. -/
theorem Chunk.listing_determines_crossed : (crossed 1 4).Bound ∧ (crossed 4 1).Bound ∧
    (crossed 1 4).listing ≠ (crossed 4 1).listing := by
  have hfirst : (crossed 1 4).Bound := by decide
  have hsecond : (crossed 4 1).Bound := by decide
  exact ⟨hfirst, hsecond, fun h => absurd ((listing_determines hfirst hsecond).1 h) (by decide)⟩

end HostScript
