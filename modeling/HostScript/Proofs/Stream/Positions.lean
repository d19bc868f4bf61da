import HostScript.Proofs.Reader.Completeness

/-! Positions are faithful.

A position is faithful to a text if it tells by counting where the text parts into a front and a back. A
cursor starts at such a position, and every place it comes by from there has one; so have tokens and
errors, which name such places. Lines and columns are counted in 32 bits, which is enough unless the text
has that many characters and all of them are in one line, or all of them are line feeds. -/

namespace HostScript

/-! ### Counting -/

theorem Place.bytes_eq (text : List Char) : bytes text = (String.ofList text).utf8ByteSize := by
  induction text with
  | nil => rfl
  | cons c text ih =>
    rw [bytes, ih, String.ofList_cons, String.utf8ByteSize_append, String.utf8ByteSize_singleton]

theorem Place.bytes_le (text : List Char) : bytes text ≤ 4 * text.length := by
  induction text with
  | nil => exact Nat.le_refl 0
  | cons c text ih =>
    have hsize := c.utf8Size_le_four
    rw [bytes, List.length_cons]
    omega

namespace Position

theorem line_after (p : Position) (c : Char) : (p.after c).line = p.line + .ofNat (if c == '\n' then 1 else 0) := by
  by_cases hc : c = '\n'
  · rw [after, if_pos hc, if_pos (beq_iff_eq.mpr hc)]
    rfl
  · rw [after, if_neg hc, if_neg (mt beq_iff_eq.mp hc)]
    exact (UInt32.add_zero _).symm

theorem column_after (p : Position) (c : Char) : (p.after c).column = if c = '\n' then 1 else p.column + 1 := by
  unfold after
  split <;> rfl

theorem line_afterAll (text : List Char) : ∀ p : Position,
    (p.afterAll text).line = p.line + .ofNat (text.count '\n') := by
  induction text with
  | nil => exact fun p => (UInt32.add_zero _).symm
  | cons c text ih =>
    intro p
    rw [afterAll, List.foldl_cons, ← afterAll, ih, line_after, List.count_cons, Nat.add_comm (text.count _),
      UInt32.ofNat_add, UInt32.add_assoc]

/-- The text is given from its end, since a column counts back to the last line feed. -/
theorem column_afterAll (back : List Char) :
    (start.afterAll back.reverse).column = .ofNat (1 + (back.takeWhile (· ≠ '\n')).length) := by
  induction back with
  | nil => rfl
  | cons c back ih =>
    have hsnoc : start.afterAll (c :: back).reverse = (start.afterAll back.reverse).after c := by
      rw [afterAll, List.reverse_cons, List.foldl_append]
      rfl
    rw [hsnoc, column_after, ih]
    by_cases hc : c = '\n'
    · rw [if_pos hc, List.takeWhile_cons_of_neg (by simpa using hc)]
      rfl
    · rw [if_neg hc, List.takeWhile_cons_of_pos (by simpa using hc), List.length_cons]
      exact (UInt32.ofNat_add _ 1).symm

end Position

/-- The bound of the number of characters in a text. -/
def lengthLimit : Nat := 4294967296

/-- The lines of the text and the columns in each can be told with 32 bits. The first line and the first
    column have the number 1, so the longest text that is not too long must have more than one line, and
    more in it than line feeds. -/
def Numberable (text : String) : Prop :=
  text.length < lengthLimit ∧ (text.length + 1 < lengthLimit ∨ '\n' ∈ text.toList ∧ ∃ c ∈ text.toList, c ≠ '\n')

namespace Numberable

variable {text : String} {part front : List Char}

/-- A part of the text is all of it only if it has both kinds of characters. -/
theorem length_lt (h : Numberable text) (hpart : part.Sublist text.toList)
    (hkind : (∀ c ∈ part, c = '\n') ∨ ∀ c ∈ part, c ≠ '\n') : 1 + part.length < lengthLimit := by
  have hle := hpart.length_le
  have hlimit := h.1
  rw [← String.length_toList] at hlimit
  rcases h.2 with hlength | ⟨hfeed, c, hc, hother⟩
  · rw [← String.length_toList] at hlength
    omega
  · have hne : part.length ≠ text.toList.length := fun heq => by
      obtain rfl := hpart.eq_of_length heq
      exact hkind.elim (fun hall => hother (hall c hc)) (fun hall => hall '\n' hfeed rfl)
    omega

theorem count_lt (h : Numberable text) (hfront : front.Sublist text.toList) : 1 + front.count '\n' < lengthLimit := by
  rw [List.count_eq_length_filter]
  exact h.length_lt (List.filter_sublist.trans hfront) (.inl fun c hc => by simpa using (List.mem_filter.mp hc).2)

theorem column_lt (h : Numberable text) (hfront : front.Sublist text.toList) :
    1 + (front.reverse.takeWhile (· ≠ '\n')).length < lengthLimit := by
  have hpart : (front.reverse.takeWhile (· ≠ '\n')).reverse.Sublist front := by
    simpa using (List.takeWhile_sublist (· ≠ '\n') (l := front.reverse)).reverse
  rw [← List.length_reverse]
  refine h.length_lt (hpart.trans hfront) (.inr fun c hc => ?_)
  have hall := List.all_eq_true.mp List.all_takeWhile c (List.mem_reverse.mp hc)
  exact of_decide_eq_true hall

end Numberable

/-- The position is one between two parts of the text, at or behind the offset `start`. Its line and
    column are those of a reader who counts the line feeds in front of it, and the characters behind the
    last of them. -/
structure Position.Faithful (text : String) (start : Nat) (position : Position) : Prop where
  start_le : start ≤ position.offset
  le_size : position.offset ≤ text.utf8ByteSize
  parts : ∃ front back : String, text = front ++ back ∧ position.offset = front.utf8ByteSize ∧
    position.line.toNat = 1 + front.toList.count '\n' ∧
    position.column.toNat = 1 + (front.toList.reverse.takeWhile (· ≠ '\n')).length

namespace Place

variable {text : String} {p q : Place}

theorem faithful_of_reaches (h : Numberable text) (hp : (start text.toList).Reaches p) (hpq : p.Reaches q) :
    q.position.Faithful text p.position.offset := by
  obtain ⟨front, hrest, hposition⟩ := hp.trans hpq
  have hfront : front.Sublist text.toList := by
    rw [show text.toList = front ++ q.rest from hrest]
    exact List.sublist_append_left front q.rest
  have htext : text = String.ofList front ++ String.ofList q.rest := by
    rw [← String.ofList_append, ← hrest]
    exact String.ofList_toList.symm
  have hoffset : q.position.offset = (String.ofList front).utf8ByteSize := by
    rw [hposition, offset_afterAll, bytes_eq]
    exact Nat.zero_add _
  refine ⟨hpq.offset_le, ?_, String.ofList front, String.ofList q.rest, htext, hoffset, ?_, ?_⟩
  · rw [hoffset, htext, String.utf8ByteSize_append]
    exact Nat.le_add_right _ _
  · have hline : q.position.line = .ofNat (1 + front.count '\n') := by
      rw [hposition, Position.line_afterAll, UInt32.ofNat_add]
      rfl
    rw [hline, String.toList_ofList]
    exact UInt32.toNat_ofNat_of_lt' (h.count_lt hfront)
  · have hcolumn := Position.column_afterAll front.reverse
    rw [List.reverse_reverse] at hcolumn
    rw [hposition, String.toList_ofList, show (start text.toList).position = .start from rfl, hcolumn]
    exact UInt32.toNat_ofNat_of_lt' (h.column_lt hfront)

theorem exists_between (front back : String) :
    ∃ p, (start (front ++ back).toList).Reaches p ∧ p.position.offset = front.utf8ByteSize := by
  refine ⟨⟨Position.start.afterAll front.toList, back.toList⟩, ⟨front.toList, String.toList_append, rfl⟩, ?_⟩
  rw [offset_afterAll, bytes_eq, String.ofList_toList]
  exact Nat.zero_add _

theorem Meets.faithful {position : Position} (hn : Numberable text) (hp : (start text.toList).Reaches p)
    (h : p.Meets position) : position.Faithful text p.position.offset := by
  obtain ⟨q, hpq, rfl⟩ := h
  exact faithful_of_reaches hn hp hpq

end Place

theorem Place.offset_lt_sizeLimit {text : String} (h : Numberable text) {p : Place}
    (hp : (start text.toList).Reaches p) : p.position.offset < sizeLimit := by
  have hlength := h.1
  have hle := (faithful_of_reaches h hp (.refl p)).le_size
  have hsize := bytes_le text.toList
  rw [bytes_eq, String.ofList_toList, String.length_toList] at hsize
  unfold lengthLimit at hlength
  unfold sizeLimit
  omega

/-- In a text that is not too long a cursor can be put at every place. -/
theorem Cursor.startingAt?_of_reaches {text : String} (h : Numberable text) {p : Place}
    (hp : (Place.start text.toList).Reaches p) : startingAt? text p.position.offset = some (.ofPlace p) := by
  obtain ⟨front, hcut⟩ := hp.cut?_eq
  have hadvance : (ofString text).advance? p.position.offset = ((ofString text).cut? p.position.offset).map (·.2) := by
    refine if_pos ?_
    rw [show (ofString text).peeked.position.offset = 0 from rfl, Nat.zero_add]
    exact Place.offset_lt_sizeLimit h hp
  have hcursor : (ofString text).cut? p.position.offset = some (front, ⟨.start text.toList, p⟩) := by
    have hstart : (ofString text).peeked.cut? p.position.offset = some (front, p) := hcut
    rw [Cursor.cut?, hstart]
    rfl
  rw [startingAt?, hadvance, hcursor]
  rfl

/-! ### Outcomes -/

/-- The read found an error with a faithful position. It was not sent into the middle of a character. -/
def Stop.Faithful (text : String) (start : Nat) : Stop → Prop
  | .error cause => ∀ position ∈ cause.position?, position.Faithful text start
  | .split | .exhausted => False

theorem Stop.FoundFrom.faithful {text : String} (hn : Numberable text) {p : Place}
    (hp : (Place.start text.toList).Reaches p) :
    ∀ {reason : Stop}, reason.FoundFrom p → reason.Faithful text p.position.offset
  | .error _, h => fun position hposition => (h position hposition).faithful hn hp

/-- What was read ends at a faithful position, or in an error with one. -/
structure FaithfulRead {α : Type} (text : String) (start : Nat) (r : Except Stop (α × Cursor)) : Prop where
  ok : ∀ {a : α} {behind : Cursor}, r = .ok (a, behind) → behind.committed.position.Faithful text start
  error : ∀ {reason : Stop}, r = .error reason → reason.Faithful text start

theorem Arrives.faithful {α : Type} {text : String} {p : Place} {r : Except Stop (α × Cursor)} (h : Arrives p r)
    (hn : Numberable text) (hp : (Place.start text.toList).Reaches p) : FaithfulRead text p.position.offset r where
  ok hr := by
    obtain ⟨q, rfl, hreaches, -⟩ := h.ok hr
    exact Place.faithful_of_reaches hn hp hreaches
  error hr := (h.error hr).faithful hn hp

namespace TokenStream

variable {S : Type} [DecidableEq S] {ctx : Context} {read : RuleReader} {g : Grammar S} {p : Place} {s : TokenStream S}

/-! ### Streams -/

/-- All positions that a stream can be asked for are faithful. A rule is tried behind the blanks, with a
    cursor as it is put there. -/
structure FaithfulIn (read : RuleReader) (text : String) (start : Nat) (s : TokenStream S) : Prop where
  committed : s.cursor.committed.position.Faithful text start
  peeked : s.cursor.peeked.position.Faithful text start
  token : ∀ token ∈ s.found?, token.position.Faithful text start
  position : s.position.Faithful text start
  error : ∀ kinds, ∀ position ∈ (s.error kinds).position?, position.Faithful text start
  stop : ∀ {reason : Stop} {s' : TokenStream S}, s.peek read = (.error reason, s') → reason.Faithful text start
  nested : Cursor.startingAt? text s.cursor.revert.skipBlanks.peeked.position.offset = some s.cursor.revert.skipBlanks.fork

/-- The peeked place is at or behind the committed one. -/
def Ordered (s : TokenStream S) : Prop := s.cursor.committed.Reaches s.cursor.peeked

theorem Ordered.after (ho : s.Ordered) (hs : s.Steady read) (op : Operation S) : (s.after read op).Ordered := by
  cases op with
  | peek =>
    have hpeeked := peek_fresh read s.grammar s.state s.cursor.committed
    rw [← Stands.peek hs] at hpeeked
    change (s.peek read).2.Ordered
    generalize s.peek read = outcome at hpeeked
    cases hpeeked with
    | stopped => exact .refl _
    | nothing | failed => exact Place.reaches_skip _
    | found failures mem attempt =>
      obtain ⟨-, q, hq, hspans⟩ := Matcher.spans_of_attempt attempt
      cases hq
      exact (Place.reaches_skip _).trans hspans.reaches
  | commit =>
    rcases s.commit_cases with ⟨token, -, hcommit⟩ | ⟨-, hcommit⟩
    · simp only [TokenStream.after, hcommit]
      exact .refl _
    · simp only [TokenStream.after, hcommit]
      exact ho
  | revert | setState | atEnd => exact .refl _
  | position | error => exact ho

theorem Ordered.afterAll (ho : s.Ordered) (hs : s.Steady read) (ops : List (Operation S)) :
    (s.afterAll read ops).Ordered := by
  induction ops generalizing s with
  | nil => exact ho
  | cons op ops ih => exact ih (ho.after hs op) (hs.after op).1

/-- The position of a stream is that of the token it keeps, or of the peeked place. -/
theorem Steady.meets_position (hs : s.Steady read) (ho : s.Ordered) : s.cursor.committed.Meets s.position := by
  unfold position found?
  rcases hl : s.lookahead with _ | _ | token
  · exact ⟨_, ho, rfl⟩
  · exact ⟨_, ho, rfl⟩
  · exact ⟨_, Place.reaches_skip _, (Stands.token hs hl).1.symm⟩

/-- Whatever was asked of a stream that started at a place of the text, its positions are faithful. -/
theorem faithful_afterAll (hr : ∀ {state q}, ctx.Ready g state q) {text : String} (hn : Numberable text)
    (hp : (Place.start text.toList).Reaches p) (ops : List (Operation S)) :
    ((ofCursor g (.ofPlace p)).afterAll ctx.rules ops).FaithfulIn ctx.rules text p.position.offset := by
  have hstart := steady_ofCursor ctx.rules g (.ofPlace p)
  obtain ⟨hs, hgrammar, hreaches⟩ := hstart.afterAll ops
  have hordered : (ofCursor g (.ofPlace p)).Ordered := .refl p
  have ho := hordered.afterAll hstart ops
  generalize (ofCursor g (.ofPlace p)).afterAll ctx.rules ops = s at *
  have hposition := ((hs.meets_position ho).mono hreaches).faithful hn hp
  refine ⟨Place.faithful_of_reaches hn hp hreaches, Place.faithful_of_reaches hn hp (hreaches.trans ho),
    fun token htoken => ?_, hposition, fun kinds position hmem => ?_, fun {reason s'} hpeek => ?_, ?_⟩
  · have heq : s.position = token.position := by
      unfold position
      rw [Option.mem_def.mp htoken]
    exact heq ▸ hposition
  · rw [position?_error] at hmem
    cases hmem
    exact hposition
  · have hready : ctx.Ready s.grammar s.state s.cursor.committed := hgrammar ▸ hr
    have herror : Reader.peek ctx s = .error reason s' := by simp only [Reader.peek, hpeek]
    exact ((Reader.Proceeds.peek hreaches hready).error hs herror).faithful hn hp
  · exact Cursor.startingAt?_of_reaches hn ((hp.trans hreaches).trans s.cursor.committed.reaches_skip)

end TokenStream

open TokenStream

/-- In a text whose lines and columns can be told, every place that a cursor can come to has a faithful
    position, so no number ever runs over. A cursor that is put between two parts of the text comes to such
    places only: whatever rule is read from there and whatever is asked of the stream of any construct. A
    stream that is led over the bytes of a rule comes to the very place where the rule ended. A program that
    cannot be read has its error at a faithful position too. No read is sent into the middle of a character. -/
theorem positions_faithful (scope : Scope) (front back : String) (h : Numberable (front ++ back)) :
    (∀ p, (Place.start (front ++ back).toList).Reaches p → p.position.Faithful (front ++ back) 0) ∧
    (∃ p, Cursor.startingAt? (front ++ back) front.utf8ByteSize = some (.ofPlace p) ∧
      (∀ rule, FaithfulRead (front ++ back) front.utf8ByteSize (Rule.read scope rule (.ofPlace p))) ∧
      ∀ (construct : Construct) (ops : List (Operation construct.State)),
        ((ofCursor construct.grammar (.ofPlace p)).afterAll (Rule.read scope) ops).FaithfulIn (Rule.read scope)
          (front ++ back) front.utf8ByteSize) ∧
    (∀ (rule : Rule) (p q : Place) (token : Token) (behind : Cursor),
      rule.attempt (Rule.read scope) ⟨p, q⟩ = .token token behind → token.position = q.position ∧
        ∃ payload inner, Rule.read scope rule (.ofPlace q) = .ok (payload, inner) ∧ behind.peeked = inner.committed) ∧
    ∀ reason, Program.read scope (front ++ back) = .error reason → reason.Faithful (front ++ back) 0 := by
  refine ⟨fun p hp => Place.faithful_of_reaches h (.refl _) hp, ?_, fun rule p q token behind ha => ?_,
    fun reason hread => ?_⟩
  · obtain ⟨p, hp, hoffset⟩ := Place.exists_between front back
    rw [← hoffset]
    refine ⟨p, Cursor.startingAt?_of_reaches h hp, fun rule => (Rule.arrives_read scope rule p).faithful h hp,
      fun construct ops => ?_⟩
    have hready {state q} : scope.context.Ready construct.grammar state q := construct.proper.ready_context
    exact faithful_afterAll hready h hp ops
  · obtain ⟨payload, r, hread, rfl, -⟩ := Rule.lands_of_attempt (Rule.arrives_read scope rule q) ha
    have ha : (Matcher.rule rule).attempt (Rule.read scope) ⟨p, q⟩ = .token token ⟨p, r⟩ := ha
    exact ⟨(Matcher.spans_of_attempt ha).1, payload, .ofPlace r, hread, rfl⟩
  · exact (Program.foundFrom_of_read hread).faithful h (.refl _)

/-- Behind a character of two bytes and a line feed the cursor is at the third byte, and at the start of the
    second line. -/
theorem positions_faithful_second_line : Numberable ("é\n" ++ " x ;") ∧
    ∃ p, Cursor.startingAt? ("é\n" ++ " x ;") "é\n".utf8ByteSize = some (.ofPlace p) ∧ p.position = ⟨3, 2, 1⟩ ∧
      ∀ rule, FaithfulRead ("é\n" ++ " x ;") "é\n".utf8ByteSize (Rule.read {} rule (.ofPlace p)) := by
  have hn : Numberable ("é\n" ++ " x ;") := ⟨by decide +kernel, .inl (by decide +kernel)⟩
  obtain ⟨p, hstart, hread, -⟩ := (positions_faithful {} "é\n" " x ;" hn).2.1
  refine ⟨hn, p, hstart, ?_, hread⟩
  have hplace : (Cursor.startingAt? ("é\n" ++ " x ;") "é\n".utf8ByteSize).map (·.committed.position) = some ⟨3, 2, 1⟩ := by
    decide +kernel
  rw [hstart] at hplace
  exact Option.some.inj hplace

/-! ### The longest line -/

/-- An empty statement behind blanks, all in one line. -/
def indented (blanks : Nat) : String := String.ofList (List.replicate blanks ' ' ++ [';'])

theorem length_indented (blanks : Nat) : (indented blanks).length = blanks + 1 := by
  rw [indented, String.length_ofList, List.length_append, List.length_replicate, List.length_singleton]

theorem Position.afterAll_blanks (blanks : Nat) : ∀ p : Position,
    p.afterAll (List.replicate blanks ' ') = ⟨p.offset + blanks, p.line, p.column + .ofNat blanks⟩ := by
  induction blanks with
  | zero => exact fun p => by simp [afterAll]
  | succ blanks ih =>
    intro p
    have hblank : p.after ' ' = ⟨p.offset + 1, p.line, p.column + 1⟩ := rfl
    rw [List.replicate_succ, afterAll, List.foldl_cons, ← afterAll, hblank, ih, Nat.add_comm blanks, UInt32.ofNat_add,
      Nat.add_assoc, UInt32.add_assoc]
    rfl

theorem Rule.read_indented (blanks : Nat) :
    ∃ p, Rule.read {} .blockStatement (.ofString (indented blanks)) = .ok (.stmt .empty, .ofPlace p) ∧
      p.position = ⟨blanks + 1, 1, .ofNat (blanks + 2)⟩ := by
  have hlist : (indented blanks).toList = List.replicate blanks ' ' ++ [';'] := String.toList_ofList
  have hblank : ∀ c ∈ List.replicate blanks ' ', isBlank c := fun c hc => List.eq_of_mem_replicate hc ▸ rfl
  have hreads : ReadsText {} .blockStatement (.stmt .empty) (List.replicate blanks ' ' ++ [';']) [] :=
    readsText_empty (.word hblank ";") []
  obtain ⟨p, hrest, hread⟩ := hreads (.start (indented blanks).toList)
    (Place.shows_of_rest (hlist.trans (List.append_nil _).symm))
  refine ⟨p, hread, ?_⟩
  obtain ⟨front, hfront, hposition⟩ := Rule.reaches_of_read hread
  have hall : front = List.replicate blanks ' ' ++ [';'] := by
    rw [hrest, List.append_nil] at hfront
    exact hfront.symm.trans hlist
  have hsnoc : Position.start.afterAll (List.replicate blanks ' ' ++ [';']) =
      (Position.start.afterAll (List.replicate blanks ' ')).after ';' := List.foldl_append
  have hcolumn : (1 : UInt32) + .ofNat blanks + 1 = .ofNat (blanks + 2) := by
    rw [UInt32.ofNat_add, UInt32.add_comm 1, UInt32.add_assoc]
    rfl
  rw [hposition, hall, show (Place.start (indented blanks).toList).position = .start from rfl, hsnoc,
    Position.afterAll_blanks, ← hcolumn, show Position.start.offset + blanks = blanks from Nat.zero_add blanks]
  rfl

/-- A line of the greatest length has its end in column 0: the column behind it is one that 32 bits do not
    tell. -/
theorem positions_faithful_long_line : (indented 4294967294).length < lengthLimit ∧
    (∃ p, Rule.read {} .blockStatement (.ofString (indented 4294967294)) = .ok (.stmt .empty, .ofPlace p) ∧
      p.position = ⟨4294967295, 1, 0⟩) ∧
    ¬FaithfulRead (indented 4294967294) 0 (Rule.read {} .blockStatement (.ofString (indented 4294967294))) := by
  obtain ⟨p, hread, hposition⟩ := Rule.read_indented 4294967294
  refine ⟨by rw [length_indented]; decide, ⟨p, hread, hposition⟩, fun hfaithful => ?_⟩
  obtain ⟨_, _, -, -, -, hcolumn⟩ := (hfaithful.ok hread).parts
  have hzero : (Cursor.ofPlace p).committed.position.column.toNat = 0 := congrArg (·.column.toNat) hposition
  omega

end HostScript
