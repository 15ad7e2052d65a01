/-
Positions in a source.

A cursor counts lines and columns while it moves, and the text of a line is
found afterwards, by its number, from the start of the source.  Both are
compared here with the line ends of the source, which a line feed, a carriage
return and the pair of both are.

* **`Byte.positionAt`**, **`Byte.lineAt`** — line, column and text of the line
  at an index into a text;
* **`Byte.line_positionAt`** — a line that is found by its number;
* **`Position.IsAt`** — a position is that of an index, which does not divide a
  line end;
* **`Cursor.scan_along`** — a lexeme does not reach over a line end;
* **`Cursor.Exact.next`**, **`Cursor.Exact.recover`** — the moves of a cursor
  lead from exact positions to exact positions.

Design notes.  Of a pair the line feed is the byte that ends the line, so the
lines before an index are counted without looking ahead of it.
-/
import Assembler6502.Proofs.Token.Lines

namespace Assembler6502

/-! ### Lines of a text -/

namespace Byte

/-- Whether a line ends with the byte at an index.  Of a carriage return and a line feed behind it,
this is the line feed. -/
def endsLine (bytes : List UInt8) (i : Nat) : Bool :=
  bytes[i]? == some 0x0a || (bytes[i]? == some 0x0d && bytes[i + 1]? != some 0x0a)

/-- The number of lines that end before an index. -/
def endsBefore (bytes : List UInt8) (offset : Nat) : Nat :=
  (List.range offset).countP (endsLine bytes)

/-- Where the line begins that an index is on. -/
def lineStart (bytes : List UInt8) : Nat → Nat
  | 0 => 0
  | i + 1 => if endsLine bytes i then i + 1 else lineStart bytes i

/-- Line and column of an index. -/
def positionAt (bytes : List UInt8) (offset : Nat) : Position :=
  ⟨1 + endsBefore bytes offset, 1 + (offset - lineStart bytes offset)⟩

/-- The line that an index is on, without its end. -/
def lineAt (bytes : List UInt8) (offset : Nat) : List UInt8 :=
  (bytes.drop (lineStart bytes offset)).takeWhile fun b => !isLineEnd b

variable {bytes rest : List UInt8} {b : UInt8} {offset : Nat}

theorem lineStart_le (bytes : List UInt8) (offset : Nat) : lineStart bytes offset ≤ offset := by
  induction offset with
  | zero => exact Nat.le_refl 0
  | succ i ih =>
    unfold lineStart
    split <;> omega

theorem endsBefore_succ (bytes : List UInt8) (offset : Nat) :
    endsBefore bytes (offset + 1) =
      endsBefore bytes offset + if endsLine bytes offset then 1 else 0 := by
  simp [endsBefore, List.range_succ, List.countP_append]

theorem lineStart_succ (bytes : List UInt8) (offset : Nat) :
    lineStart bytes (offset + 1) =
      if endsLine bytes offset then offset + 1 else lineStart bytes offset :=
  rfl

/-- The line of an index begins with the text if no line ends before the index. -/
theorem lineStart_eq_zero_iff : lineStart bytes offset = 0 ↔ endsBefore bytes offset = 0 := by
  induction offset with
  | zero => exact iff_of_true rfl rfl
  | succ i ih =>
    rw [lineStart_succ, endsBefore_succ]
    cases endsLine bytes i <;> simp [ih]

theorem positionAt_succ_of_not_endsLine (h : endsLine bytes offset = false) :
    positionAt bytes (offset + 1) = (positionAt bytes offset).right 1 := by
  have hle := lineStart_le bytes offset
  simp only [positionAt, Position.right, lineStart_succ, endsBefore_succ, h]
  congr 1
  simp only [Bool.false_eq_true, if_false]
  omega

theorem positionAt_succ_of_endsLine (h : endsLine bytes offset = true) :
    positionAt bytes (offset + 1) = (positionAt bytes offset).nextLine := by
  simp only [positionAt, Position.nextLine, lineStart_succ, endsBefore_succ, h, if_true]
  congr 1
  omega

/-! ### Lines by their number -/

theorem endsLine_cons_succ (b : UInt8) (rest : List UInt8) (i : Nat) :
    endsLine (b :: rest) (i + 1) = endsLine rest i := by
  simp [endsLine]

theorem endsBefore_cons (b : UInt8) (rest : List UInt8) (offset : Nat) :
    endsBefore (b :: rest) (offset + 1) =
      (if endsLine (b :: rest) 0 then 1 else 0) + endsBefore rest offset := by
  induction offset with
  | zero => simp [endsBefore]
  | succ i ih => rw [endsBefore_succ, ih, endsLine_cons_succ, endsBefore_succ, Nat.add_assoc]

theorem lineStart_cons (b : UInt8) (rest : List UInt8) (offset : Nat) :
    lineStart (b :: rest) (offset + 1) =
      if endsLine (b :: rest) 0 = false ∧ lineStart rest offset = 0 then 0
      else lineStart rest offset + 1 := by
  induction offset with
  | zero => cases h : endsLine (b :: rest) 0 <;> simp [lineStart, h]
  | succ i ih =>
    rw [lineStart_succ, endsLine_cons_succ, ih, lineStart_succ]
    cases endsLine rest i <;> simp

theorem lineAt_cons (b : UInt8) (rest : List UInt8) (offset : Nat) :
    lineAt (b :: rest) (offset + 1) =
      if endsLine (b :: rest) 0 = false ∧ lineStart rest offset = 0 then
        (b :: rest).takeWhile fun b => !isLineEnd b
      else lineAt rest offset := by
  unfold lineAt
  rw [lineStart_cons]
  split <;> rfl

theorem endsBefore_nil (offset : Nat) : endsBefore [] offset = 0 := by
  simp [endsBefore, endsLine]

theorem endsLine_cons_zero (b : UInt8) (rest : List UInt8) :
    endsLine (b :: rest) 0 = (b == 0x0a || (b == 0x0d && rest.head? != some 0x0a)) := by
  simp [endsLine, List.head?_eq_getElem?]

theorem endsLine_of_inline (h : isLineEnd b = false) : endsLine (b :: rest) 0 = false := by
  simp only [isLineEnd, Bool.or_eq_false_iff] at h
  simp [endsLine_cons_zero, h.1, h.2]

/-- A line end that is no pair is one byte. -/
theorem endsLine_of_single (hb : isLineEnd b = true)
    (hpair : ∀ behind, b = 0x0d → rest = 0x0a :: behind → False) :
    endsLine (b :: rest) 0 = true := by
  rw [endsLine_cons_zero]
  rcases eq_of_isLineEnd hb with rfl | rfl
  · rfl
  · cases rest with
    | nil => rfl
    | cons b' behind =>
      have hne : b' ≠ 0x0a := fun heq => hpair behind rfl (by rw [heq])
      simp [hne]

/-- The line of that number is the line that the index is on. -/
theorem getElem?_lines (bytes : List UInt8) (offset : Nat) :
    (lines bytes)[endsBefore bytes offset]? = some (lineAt bytes offset) := by
  fun_induction lines bytes generalizing offset with
  | case1 =>
    rw [endsBefore_nil]
    simp [lineAt]
  | case2 rest ih =>
    have hreturn : endsLine (0x0d :: 0x0a :: rest) 0 = false := rfl
    have hfeed : endsLine (0x0a :: rest) 0 = true := rfl
    rcases offset with _ | _ | offset
    · rfl
    · rfl
    · rw [endsBefore_cons, endsBefore_cons, hreturn, hfeed]
      rw [lineAt_cons, lineAt_cons, lineStart_cons]
      simp [hfeed, Nat.add_comm 1, ih]
  | case3 b rest hpair hb ih =>
    have hend : endsLine (b :: rest) 0 = true := endsLine_of_single hb hpair
    rcases offset with _ | offset
    · simp [endsBefore, lineAt, lineStart, hb]
    · rw [endsBefore_cons, hend, lineAt_cons]
      simp [hend, Nat.add_comm 1, ih]
  | case4 b rest hpair hb hlines ih =>
    have hfirst := ih 0
    rw [hlines] at hfirst
    cases hfirst
  | case5 b rest hpair hb line others hlines ih =>
    have hinline : isLineEnd b = false := by simpa using hb
    have hstay : endsLine (b :: rest) 0 = false := endsLine_of_inline hinline
    -- the byte goes before the first line of the rest
    have hfirst : some (b :: line) = some ((b :: rest).takeWhile fun b => !isLineEnd b) := by
      have hline := ih 0
      rw [hlines] at hline
      cases hline
      simp [lineAt, lineStart, hinline]
    rcases offset with _ | offset
    · exact hfirst
    · rw [endsBefore_cons, hstay, lineAt_cons]
      simp only [hstay, Bool.false_eq_true, if_false, Nat.zero_add, true_and]
      by_cases hstart : lineStart rest offset = 0
      · rw [if_pos hstart, lineStart_eq_zero_iff.mp hstart]
        exact hfirst
      · obtain ⟨n, hn⟩ := Nat.exists_eq_succ_of_ne_zero (mt lineStart_eq_zero_iff.mpr hstart)
        rw [if_neg hstart, ← ih offset, hlines, hn]
        rfl

/-- A line is found by its number. -/
theorem line_positionAt (bytes : List UInt8) (offset : Nat) :
    line bytes (positionAt bytes offset).line = lineAt bytes offset := by
  unfold line
  rw [if_neg (by simp only [positionAt]; omega)]
  simp only [positionAt, Nat.add_sub_cancel_left]
  rw [getElem?_lines, Option.getD_some]

theorem Inline.isLineEnd {p : UInt8 → Bool} (hp : Inline p) (hb : p b = true) :
    Byte.isLineEnd b = false := by
  cases hend : Byte.isLineEnd b with
  | false => rfl
  | true =>
    rw [hp.eq_false hend] at hb
    cases hb

theorem endsLine_drop (bytes : List UInt8) (offset : Nat) :
    endsLine (bytes.drop offset) 0 = endsLine bytes offset := by
  simp [endsLine, List.getElem?_drop]

end Byte

/-! ### Positions that are exact -/

namespace Position

open Byte

/-- A position is line and column of an index into a text, which is not between the two bytes of
one line end. -/
structure IsAt (bytes : List UInt8) (offset : Nat) (p : Position) : Prop where
  inside : offset ≤ bytes.length
  whole : ∀ i, offset = i + 1 → bytes[i]? = some 0x0d → bytes[offset]? ≠ some 0x0a
  exact : p = positionAt bytes offset

/-- A position is that of the first byte of a tail of a text. -/
def Heads (bytes rest : List UInt8) (p : Position) : Prop :=
  ∃ offset, rest = bytes.drop offset ∧ p.IsAt bytes offset

variable {bytes rest : List UInt8} {b : UInt8} {p : Position}

theorem heads_start (bytes : List UInt8) : start.Heads bytes bytes :=
  ⟨0, rfl, Nat.zero_le _, nofun, rfl⟩

/-- Some bytes further.  The index behind them is whole unless it divides a pair. -/
theorem Heads.beyond (read : List UInt8) {q : Position} (h : p.Heads bytes (read ++ b :: rest))
    (hwhole : b = 0x0d → rest.head? ≠ some 0x0a)
    (hexact : ∀ offset, bytes.drop offset = read ++ b :: rest → p = positionAt bytes offset →
      positionAt bytes (offset + read.length + 1) = q) : q.Heads bytes rest := by
  obtain ⟨offset, hrest, hat⟩ := h
  have hlast : bytes.drop (offset + read.length) = b :: rest := by
    rw [← List.drop_drop, ← hrest, List.drop_left]
  have hbyte : bytes[offset + read.length]? = some b := by
    rw [← List.head?_drop, hlast, List.head?_cons]
  have htail : bytes.drop (offset + read.length + 1) = rest := by
    rw [← List.tail_drop, hlast, List.tail_cons]
  have hlt : offset + read.length < bytes.length := (List.getElem?_eq_some_iff.mp hbyte).1
  refine ⟨offset + read.length + 1, htail.symm, hlt, ?_, (hexact offset hrest.symm hat.exact).symm⟩
  rintro i ⟨⟩ hreturn
  rw [hbyte] at hreturn
  cases hreturn
  rw [← List.head?_drop, htail]
  exact hwhole rfl

theorem Heads.right (h : p.Heads bytes (b :: rest)) (hb : isLineEnd b = false) :
    (p.right 1).Heads bytes rest := by
  refine h.beyond [] ?_ ?_
  · rintro rfl
    cases hb
  · rintro offset hdrop rfl
    have hstay : endsLine bytes offset = false := by
      rw [← endsLine_drop, hdrop]
      exact endsLine_of_inline hb
    exact positionAt_succ_of_not_endsLine hstay

theorem Heads.single (h : p.Heads bytes (b :: rest)) (hb : isLineEnd b = true)
    (hpair : ∀ behind, b = 0x0d → rest = 0x0a :: behind → False) :
    p.nextLine.Heads bytes rest := by
  refine h.beyond [] ?_ ?_
  · intro hreturn hfeed
    obtain ⟨behind, hbehind⟩ := List.head?_eq_some_iff.mp hfeed
    exact hpair behind hreturn hbehind
  · rintro offset hdrop rfl
    have hend : endsLine bytes offset = true := by
      rw [← endsLine_drop, hdrop]
      exact endsLine_of_single hb hpair
    exact positionAt_succ_of_endsLine hend

theorem Heads.pair (h : p.Heads bytes (0x0d :: 0x0a :: rest)) : p.nextLine.Heads bytes rest := by
  refine h.beyond [0x0d] (fun heq => by cases heq) ?_
  rintro offset hdrop rfl
  have hreturn : endsLine bytes offset = false := by
    rw [← endsLine_drop, hdrop]
    rfl
  have hfeed : endsLine bytes (offset + 1) = true := by
    rw [← endsLine_drop, ← List.drop_drop, hdrop]
    rfl
  -- the column between the two bytes is forgotten on the next line
  rw [List.length_singleton, positionAt_succ_of_endsLine hfeed,
    positionAt_succ_of_not_endsLine hreturn]
  rfl

theorem Heads.line (text : List UInt8) (h : p.Heads bytes (text ++ rest)) (htext : OneLine text) :
    (p.right text.length).Heads bytes rest := by
  induction text generalizing p with
  | nil => exact h
  | cons b text ih =>
    have hnext := ih (h.right (htext b List.mem_cons_self))
      (htext.of_suffix (List.suffix_cons b text))
    have hlength : (p.right 1).right text.length = p.right (b :: text).length := by
      simp [Position.right]
      omega
    rwa [hlength] at hnext

theorem Heads.isAt (h : p.Heads bytes rest) : ∃ offset, p.IsAt bytes offset := by
  obtain ⟨offset, -, hat⟩ := h
  exact ⟨offset, hat⟩

theorem Heads.dropLineEnd (h : p.Heads bytes rest) (hb : rest.head?.any isLineEnd = true) :
    p.nextLine.Heads bytes (dropLineEnd rest) := by
  unfold Byte.dropLineEnd
  split
  · exact h.pair
  · next b behind hpair =>
    have hend : isLineEnd b = true := by simpa using hb
    rw [if_pos hend]
    exact h.single hend hpair
  · cases hb

theorem Heads.afterBlankLines {comment : Bool} (h : p.Heads bytes rest) :
    (Cursor.afterBlankLines comment rest p).2.Heads bytes
      (Cursor.afterBlankLines comment rest p).1 := by
  fun_induction Cursor.afterBlankLines comment rest p with
  | case1 => exact h
  | case2 _ _ _ ih => exact ih h.pair
  | case3 _ _ _ _ hpair hend ih => exact ih (h.single hend hpair)
  | case4 _ _ _ _ hpair hend _ ih => exact ih (h.right (by simpa using hend))
  | case5 _ _ _ _ hpair hend _ _ ih => exact ih (h.right (by simpa using hend))
  | case6 => exact h

end Position

/-! ### Lexemes within a line -/

namespace Cursor

open Byte

/-- The cursor `d` is further on the line of the cursor `c`, in the same statement. -/
def Along (c d : Cursor) : Prop :=
  ∃ text, OneLine text ∧ c.rest = text ++ d.rest ∧ d.position = c.position.right text.length ∧
    d.statement = c.statement

variable {bytes : List UInt8} {c d : Cursor} {p : UInt8 → Bool}

theorem Along.refl (c : Cursor) : c.Along c :=
  ⟨[], nofun, rfl, rfl, rfl⟩

theorem Along.trans {e : Cursor} (h : c.Along d) (h' : d.Along e) : c.Along e := by
  obtain ⟨text, hline, hrest, hposition, hstatement⟩ := h
  obtain ⟨text', hline', hrest', hposition', hstatement'⟩ := h'
  refine ⟨text ++ text', ?_, ?_, ?_, hstatement'.trans hstatement⟩
  · intro b hb
    exact (List.mem_append.mp hb).elim (hline b) (hline' b)
  · rw [hrest, hrest', List.append_assoc]
  · simp [hposition', hposition, Position.right, Nat.add_assoc]

theorem skipWhile_along (c : Cursor) (hp : Inline p) : c.Along (c.skipWhile p) := by
  refine ⟨c.rest.takeWhile p, ?_, List.takeWhile_append_dropWhile.symm, rfl, rfl⟩
  intro b hb
  exact hp.isLineEnd (List.all_eq_true.mp List.all_takeWhile b hb)

theorem skip_along {n : Nat} (hn : n ≤ c.rest.length) (hline : OneLine (c.rest.take n)) :
    c.Along (c.skip n) := by
  refine ⟨c.rest.take n, hline, (List.take_append_drop n c.rest).symm, ?_, rfl⟩
  rw [List.length_take_of_le hn]
  rfl

theorem skip_one_along {b : UInt8} {rest : List UInt8} (hrest : c.rest = b :: rest)
    (hb : isLineEnd b = false) : c.Along (c.skip 1) := by
  refine skip_along (by simp [hrest]) ?_
  intro b' hb'
  rw [hrest, List.take_one, List.head?_cons, Option.toList_some, List.mem_singleton] at hb'
  rw [hb', hb]

/-- A byte of a kind that line ends do not belong to is passed over. -/
theorem skip_seen_along (h : c.sees p = true) (hp : Inline p) : c.Along (c.skip 1) := by
  obtain ⟨b, rest, hrest⟩ := List.exists_cons_of_ne_nil (rest_ne_nil_of_sees h)
  exact skip_one_along hrest (hp.isLineEnd (by simpa [sees, hrest] using h))

/-! Each scanner stays on the line if the first byte of its lexeme is on it. -/

theorem quoted_along (h : c.Along (c.skip 1)) : c.Along c.quoted.2 := by
  have hinside : Inline isQuotable := by decide
  unfold quoted
  dsimp only
  split
  · next hclosed =>
    exact (h.trans (skipWhile_along _ hinside)).trans (skip_seen_along hclosed (by decide))
  · exact h.trans (skipWhile_along _ hinside)

theorem number_along (radix : Radix) (c : Cursor) : c.Along (c.number radix).2 := by
  have hdigits := skipWhile_along c (inline_isDigit radix)
  unfold number
  dsimp only
  split
  · split <;> exact hdigits
  · exact hdigits.trans (skipWhile_along _ (by decide))

theorem markedNumber_along (radix : Radix) (h : c.Along (c.skip 1)) :
    c.Along (c.markedNumber radix).2 := by
  have hspacing := h.trans (skipWhile_along _ (by decide : Inline isSpacing))
  unfold markedNumber
  dsimp only
  split
  · exact hspacing.trans (number_along radix _)
  · exact hspacing

theorem angle_along (sign : Char) (single double : Operator) (h : c.Along (c.skip 1))
    (hsign : Inline fun b => char b == sign) : c.Along (c.angle sign single double).2 := by
  unfold angle
  dsimp only
  split
  · next hdouble => exact h.trans (skip_seen_along hdouble hsign)
  · exact h

theorem anonymous_along (h : c.Along (c.skip 1)) : c.Along c.anonymous.2 := by
  unfold anonymous
  dsimp only
  cases hrest : (c.skip 1).rest with
  | nil => exact h
  | cons b rest =>
    cases hb : isLineEnd b with
    | true =>
      -- a line end is no second mark
      rcases eq_of_isLineEnd hb with rfl | rfl <;> exact h
    | false =>
      have hsecond := h.trans (skip_one_along hrest hb)
      split <;> first | exact hsecond | exact h

theorem hash_along (h : c.Along (c.skip 1)) : c.Along c.hash.2 := by
  unfold hash
  dsimp only
  split
  · next hword =>
    have htext : foldedText (c.rest.take "#include".length) = "#include" := by
      simp only [Bool.and_eq_true, decide_eq_true_eq] at hword
      exact hword.1
    have hinline : Inline fun b => decide (folded b ∈ "#include".toList) := by decide
    refine skip_along ?_ ?_
    · have hlength := congrArg String.length htext
      simp only [foldedText, String.length_ofList, List.length_map, List.length_take] at hlength
      omega
    · intro b hb
      refine hinline.isLineEnd (decide_eq_true ?_)
      rw [← htext, foldedText, String.toList_ofList]
      exact List.mem_map_of_mem hb
  · exact h

theorem word_along (h : c.Along (c.skip 1)) : c.Along c.word.2 := by
  have hread := h.trans (skipWhile_along _ (by decide : Inline isWord))
  unfold word
  dsimp only
  split
  · exact hread
  · split
    · exact hread
    · split
      · next hcolon => exact hread.trans (skip_seen_along hcolon (by decide))
      · exact hread

theorem Scans.along {x : Scanned} (h : c.Scans x) (hfirst : c.Along (c.skip 1)) :
    c.Along x.2 := by
  cases h with
  | sign => exact hfirst
  | marked radix => exact markedNumber_along radix hfirst
  | quoted => exact quoted_along hfirst
  | anonymous => exact anonymous_along hfirst
  | hash => exact hash_along hfirst
  | less => exact angle_along _ _ _ hfirst (by decide)
  | greater => exact angle_along _ _ _ hfirst (by decide)
  | decimal => exact number_along _ c
  | word => exact word_along hfirst
  | illegal => exact hfirst

/-- A lexeme does not reach over a line end. -/
theorem scan_along (h : c.sees isLineEnd = false) : c.Along c.scan.2 := by
  cases hrest : c.rest with
  | nil =>
    rw [scan_of_nil hrest]
    exact .refl c
  | cons b rest =>
    have hsolid : c.rest ≠ [] := by simp [hrest]
    exact (scans_scan hsolid).along (skip_one_along hrest (by simpa [sees, hrest] using h))

/-! ### Moves of the cursor -/

/-- The cursor knows where it is: its position is that of the bytes left to read, and the statement
that is being read began at a position of the text. -/
structure Exact (bytes : List UInt8) (c : Cursor) : Prop where
  position : c.position.Heads bytes c.rest
  statement : ∃ offset, c.statement.IsAt bytes offset

theorem exact_ofBytes (bytes : List UInt8) : (ofBytes bytes).Exact bytes where
  position := Position.heads_start bytes
  statement := (Position.heads_start bytes).isAt

theorem Exact.along (h : c.Exact bytes) (hd : c.Along d) : d.Exact bytes := by
  obtain ⟨text, hline, hrest, hposition, hstatement⟩ := hd
  refine ⟨?_, hstatement ▸ h.statement⟩
  rw [hposition]
  exact Position.Heads.line text (hrest ▸ h.position) hline

theorem Exact.newline (h : c.Exact bytes) (hsees : c.sees isLineEnd = true) :
    c.newline.Exact bytes :=
  ⟨h.position.dropLineEnd hsees, h.statement⟩

theorem skipBlanks_along (c : Cursor) : c.Along c.skipBlanks := by
  have hblank := skipWhile_along c (by decide : Inline isBlank)
  unfold skipBlanks
  dsimp only
  split
  · exact hblank.trans (skipWhile_along _ inline_not_isLineEnd)
  · exact hblank

theorem Exact.toToken (h : c.Exact bytes) : c.toToken.Exact bytes := by
  unfold Cursor.toToken
  split
  · exact ⟨h.position.afterBlankLines, h.statement⟩
  · exact h.along c.skipBlanks_along

theorem Exact.begin (h : c.Exact bytes) : c.begin.Exact bytes := by
  refine ⟨h.position, ?_⟩
  unfold Cursor.begin
  dsimp only
  split
  · exact h.position.isAt
  · exact h.statement

/-- Where a token or an error is. -/
def place : Except (ScanError × Position) (Token Spelling) → Position
  | .ok token => token.position
  | .error (_, position) => position

theorem place_located (q : Position) (x : Except ScanError (Lexeme Spelling)) :
    place (located q x) = q := by
  cases x <;> rfl

/-- The next token is read, and it stands behind the blanks. -/
theorem Exact.next (h : c.Exact bytes) :
    c.next.2.Exact bytes ∧ (place c.next.1).Heads bytes c.toToken.rest := by
  have htoken := h.toToken
  cases hsees : c.toToken.sees isLineEnd with
  | true =>
    have hline := htoken.newline hsees
    rw [next_eq_newline hsees]
    exact ⟨⟨hline.position, hline.statement⟩, htoken.position⟩
  | false =>
    rw [next_eq_scan hsees, place_located]
    exact ⟨htoken.begin.along (scan_along hsees), htoken.position⟩

/-- A failed statement is passed over. -/
theorem Exact.recover (h : c.Exact bytes) : c.recover.Exact bytes := by
  unfold Cursor.recover
  split
  · exact h
  · have hended : c.skipLine.Exact bytes := h.along (skipWhile_along c inline_not_isLineEnd)
    dsimp only
    split
    · exact ⟨hended.position, hended.statement⟩
    · next hmore =>
      -- only a line end stops the way to the end of the line
      obtain ⟨b, rest, hrest⟩ := List.exists_cons_of_ne_nil (mt List.isEmpty_iff.mpr hmore)
      have hend : isLineEnd b = true := by
        refine c.frame.closed b ?_
        show c.skipLine.rest.head? = some b
        rw [hrest, List.head?_cons]
      have hsees : c.skipLine.sees isLineEnd = true := by simp [sees, hrest, hend]
      have hline := hended.newline hsees
      exact ⟨hline.position, hline.statement⟩

end Cursor

end Assembler6502
