/-
Tokens and the line they stand on.

A token lies within one line, and nothing but the text of the line decides what
it is.  So a cursor on a line is taken apart into the text that is left of the
line and the frame around it: the number of the line, where its statement
begins, and what stands behind it.

* **`Cursor.within`** — a cursor over a text, put into the frame of a line;
* **`scan_within`** — the frame has no influence on the lexeme, and scanning
  leaves it alone;
* **`opens_within`**, **`next_within_of_blank`** — the next token on a line, and
  the end of the line;
* **`resumed_recover`** — recovery leads to the start of the next line.

Design notes.  The bytes behind the text begin with a line end, or there are
none.  In the first case the line ends with a line end as its last token, in the
second with the end of the input.
-/
import Assembler6502.Token.Reading

namespace Assembler6502

namespace Byte

theorem eq_of_isLineEnd {b : UInt8} (h : isLineEnd b = true) : b = 0x0a ∨ b = 0x0d := by
  simpa [isLineEnd] using h

/-- A kind of bytes that line ends do not belong to. -/
def Inline (p : UInt8 → Bool) : Prop :=
  p 0x0a = false ∧ p 0x0d = false

instance (p : UInt8 → Bool) : Decidable (Inline p) :=
  inferInstanceAs (Decidable (_ ∧ _))

theorem Inline.eq_false {p : UInt8 → Bool} (hp : Inline p) {b : UInt8}
    (hb : isLineEnd b = true) : p b = false := by
  rcases eq_of_isLineEnd hb with rfl | rfl
  · exact hp.1
  · exact hp.2

/-- A text without a line end. -/
def OneLine (text : List UInt8) : Prop :=
  ∀ b ∈ text, isLineEnd b = false

theorem OneLine.of_suffix {text part : List UInt8} (h : OneLine text) (hpart : part <:+ text) :
    OneLine part :=
  fun b hb => h b (hpart.subset hb)

end Byte

/-- What stands around the text of a line: its number, the column in which its statement begins,
and the bytes from its line end on. -/
structure Frame where
  number : Nat
  column : Nat
  behind : List UInt8
  closed : ∀ b ∈ behind.head?, Byte.isLineEnd b = true

namespace Frame

/-- The cursor behind the line end. -/
def passed (f : Frame) : Cursor :=
  ⟨Byte.dropLineEnd f.behind, ⟨f.number + 1, 1⟩, true, ⟨f.number, f.column⟩⟩

variable {f : Frame} {p : UInt8 → Bool}

theorem takeWhile_append (hp : Byte.Inline p) (text : List UInt8) :
    (text ++ f.behind).takeWhile p = text.takeWhile p := by
  induction text with
  | nil =>
    cases hbehind : f.behind with
    | nil => rfl
    | cons b rest =>
      have hb : p b = false := hp.eq_false (f.closed b (by rw [hbehind]; rfl))
      simp [hb]
  | cons b rest ih =>
    by_cases hb : p b = true
    · simp [hb, ih]
    · simp [hb]

theorem dropWhile_append (hp : Byte.Inline p) (text : List UInt8) :
    (text ++ f.behind).dropWhile p = text.dropWhile p ++ f.behind := by
  have hparts : (text ++ f.behind).takeWhile p ++ (text ++ f.behind).dropWhile p =
      text.takeWhile p ++ (text.dropWhile p ++ f.behind) := by
    rw [List.takeWhile_append_dropWhile, ← List.append_assoc, List.takeWhile_append_dropWhile]
  rw [takeWhile_append hp] at hparts
  exact List.append_cancel_left hparts

/-- The text of the line goes up to its end. -/
theorem takeWhile_line {text : List UInt8} (h : Byte.OneLine text) :
    (text ++ f.behind).takeWhile (fun b => !Byte.isLineEnd b) = text := by
  have hnone : f.behind.takeWhile (fun b => !Byte.isLineEnd b) = [] :=
    takeWhile_append (by decide) []
  rw [List.takeWhile_append_of_pos fun b hb => by rw [h b hb]; rfl, hnone, List.append_nil]

theorem dropWhile_line {text : List UInt8} (h : Byte.OneLine text) :
    (text ++ f.behind).dropWhile (fun b => !Byte.isLineEnd b) = f.behind := by
  rw [List.dropWhile_append_of_pos fun b hb => by rw [h b hb]; rfl]
  exact dropWhile_append (by decide) []

/-- No kind of bytes that excludes line ends goes on behind the text. -/
theorem any_head?_append (hp : Byte.Inline p) (text : List UInt8) :
    (text ++ f.behind).head?.any p = text.head?.any p := by
  cases text with
  | cons b rest => rfl
  | nil =>
    cases hbehind : f.behind with
    | nil => rfl
    | cons b rest => simp [hp.eq_false (f.closed b (by rw [hbehind]; rfl))]

end Frame

namespace Cursor

/-- The cursor in the frame of a line. -/
def within (c : Cursor) (f : Frame) : Cursor :=
  ⟨c.rest ++ f.behind, ⟨f.number, c.position.column⟩, c.fresh, ⟨f.number, f.column⟩⟩

end Cursor

/-- What was scanned, in the frame of a line. -/
def Scanned.within (x : Scanned) (f : Frame) : Scanned :=
  (x.1, x.2.within f)

namespace Cursor

variable {c : Cursor} {f : Frame} {p : UInt8 → Bool}

/-! ### Moves on a line -/

theorem skip_within {n : Nat} (h : n ≤ c.rest.length) :
    (c.within f).skip n = (c.skip n).within f := by
  simp [skip, within, Position.right, List.drop_append_of_le_length h]

theorem skip_one_within (h : c.rest ≠ []) : (c.within f).skip 1 = (c.skip 1).within f :=
  skip_within (List.length_pos_iff.mpr h)

theorem skipWhile_within (hp : Byte.Inline p) :
    (c.within f).skipWhile p = (c.skipWhile p).within f := by
  simp [skipWhile, within, Position.right, Frame.takeWhile_append hp, Frame.dropWhile_append hp]

theorem takeWhile_within (hp : Byte.Inline p) :
    (c.within f).rest.takeWhile p = c.rest.takeWhile p :=
  Frame.takeWhile_append hp c.rest

theorem sees_within (hp : Byte.Inline p) : (c.within f).sees p = c.sees p :=
  Frame.any_head?_append hp c.rest

theorem rest_ne_nil_of_sees (h : c.sees p = true) : c.rest ≠ [] := by
  intro hrest
  simp [sees, hrest] at h

theorem inline_not_isLineEnd : Byte.Inline fun b => !Byte.isLineEnd b := by
  decide

theorem skipBlanks_within : (c.within f).skipBlanks = c.skipBlanks.within f := by
  have hblank : Byte.Inline Byte.isBlank := by decide
  have hcomment : Byte.Inline Byte.startsComment := by decide
  unfold skipBlanks skipLine
  simp only [skipWhile_within hblank, sees_within hcomment]
  split
  · exact skipWhile_within inline_not_isLineEnd
  · rfl

/-! ### Lexemes on a line -/

theorem quoted_within (h : c.rest ≠ []) : (c.within f).quoted = Scanned.within c.quoted f := by
  have hinside : Byte.Inline Byte.isQuotable := by decide
  have hquote : Byte.Inline fun b => Byte.char b == '"' := by decide
  unfold quoted Scanned.within
  simp only [skip_one_within h, takeWhile_within hinside, skipWhile_within hinside,
    sees_within hquote]
  split
  · next hclosed => rw [skip_one_within (rest_ne_nil_of_sees hclosed)]
  · rfl

theorem inline_isDigit (radix : Radix) : Byte.Inline fun b => radix.isDigit (Byte.folded b) := by
  cases radix <;> decide

theorem number_within (radix : Radix) :
    (c.within f).number radix = Scanned.within (c.number radix) f := by
  have hdigit := inline_isDigit radix
  have hword : Byte.Inline Byte.isWord := by decide
  unfold number Scanned.within
  simp only [takeWhile_within hdigit, skipWhile_within hdigit, takeWhile_within hword,
    skipWhile_within hword]
  split
  · split <;> rfl
  · rfl

theorem markedNumber_within (radix : Radix) (h : c.rest ≠ []) :
    (c.within f).markedNumber radix = Scanned.within (c.markedNumber radix) f := by
  have hspacing : Byte.Inline Byte.isSpacing := by decide
  unfold markedNumber
  simp only [skip_one_within h, skipWhile_within hspacing, sees_within (inline_isDigit radix)]
  split
  · exact number_within radix
  · rfl

theorem angle_within (sign : Char) (single double : Operator) (h : c.rest ≠ [])
    (hsign : Byte.Inline fun b => Byte.char b == sign) :
    (c.within f).angle sign single double = Scanned.within (c.angle sign single double) f := by
  unfold angle Scanned.within
  simp only [skip_one_within h, sees_within hsign]
  split
  · next hdouble => rw [skip_one_within (rest_ne_nil_of_sees hdouble)]
  · rfl

theorem anonymous_within (h : c.rest ≠ []) :
    (c.within f).anonymous = Scanned.within c.anonymous f := by
  unfold anonymous Scanned.within
  simp only [skip_one_within h]
  cases hrest : (c.skip 1).rest with
  | cons b rest =>
    -- the byte behind the mark is on the line
    have hskip : ((c.skip 1).within f).skip 1 = ((c.skip 1).skip 1).within f :=
      skip_one_within (by rw [hrest]; exact List.cons_ne_nil b rest)
    have hhead : ((c.skip 1).within f).rest.head? = some b := by simp [within, hrest]
    rw [hhead, hskip]
    simp only [List.head?_cons]
    split <;> rfl
  | nil =>
    -- a line end is no second mark
    have hhead : ((c.skip 1).within f).rest = f.behind := by simp [within, hrest]
    rw [hhead]
    cases hbehind : f.behind with
    | nil => rfl
    | cons b rest =>
      rcases Byte.eq_of_isLineEnd (f.closed b (by rw [hbehind]; rfl)) with rfl | rfl <;> rfl

theorem hash_within (h : c.rest ≠ []) : (c.within f).hash = Scanned.within c.hash f := by
  have hword : Byte.Inline Byte.isWord := by decide
  unfold hash Scanned.within
  simp only [skip_one_within h]
  by_cases hlong : "#include".length ≤ c.rest.length
  · have htake : (c.within f).rest.take "#include".length = c.rest.take "#include".length :=
      List.take_append_of_le_length hlong
    rw [htake, skip_within hlong, sees_within hword]
    split <;> rfl
  · -- the text is too short for the word, and a line end is no part of it
    have hshort : Byte.foldedText (c.rest.take "#include".length) ≠ "#include" := by
      intro heq
      have hlength := congrArg String.length heq
      simp [Byte.foldedText] at hlength
      simp at hlong
      omega
    have hwithin : Byte.foldedText ((c.within f).rest.take "#include".length) ≠ "#include" := by
      cases hbehind : f.behind with
      | nil => simpa [within, hbehind] using hshort
      | cons b rest =>
        intro heq
        have hmem : Byte.folded b ∈ "#include".toList := by
          rw [← heq, Byte.foldedText, String.toList_ofList]
          refine List.mem_map_of_mem ?_
          rw [within, hbehind]
          simp only [List.take_append, List.mem_append]
          refine .inr ?_
          obtain ⟨k, hk⟩ := Nat.exists_eq_add_of_lt (Nat.lt_of_not_le hlong)
          rw [show "#include".length - c.rest.length = k + 1 by omega]
          exact List.mem_cons_self
        rcases Byte.eq_of_isLineEnd (f.closed b (by rw [hbehind]; rfl)) with rfl | rfl
        · exact absurd hmem (by decide)
        · exact absurd hmem (by decide)
    simp [hshort, hwithin]

theorem word_within (h : c.rest ≠ []) : (c.within f).word = Scanned.within c.word f := by
  have hword : Byte.Inline Byte.isWord := by decide
  have hdot : Byte.Inline fun b => Byte.char b == '.' := by decide
  have hcolon : Byte.Inline fun b => Byte.char b == ':' := by decide
  have hone : 1 ≤ c.rest.length := List.length_pos_iff.mpr h
  have htake : (c.within f).rest.take 1 = c.rest.take 1 := List.take_append_of_le_length hone
  have hdrop : ((c.within f).rest.drop 1).takeWhile Byte.isWord =
      (c.rest.drop 1).takeWhile Byte.isWord := by
    rw [within, List.drop_append_of_le_length hone]
    exact Frame.takeWhile_append hword _
  unfold word Scanned.within
  simp only [htake, hdrop, skip_one_within h, skipWhile_within hword, sees_within hdot,
    sees_within hcolon]
  split
  · rfl
  · split
    · rfl
    · split
      · next hsees => rw [skip_one_within (rest_ne_nil_of_sees hsees)]
      · rfl

/-- The frame of a line has no influence on a lexeme, and scanning leaves it alone. -/
theorem scan_within (h : c.rest ≠ []) : (c.within f).scan = Scanned.within c.scan f := by
  obtain ⟨b, rest, hrest⟩ := List.exists_cons_of_ne_nil h
  have hwithin : (c.within f).rest = b :: (rest ++ f.behind) := by simp [within, hrest]
  unfold scan
  rw [hwithin, hrest]
  dsimp only
  -- one case for each kind of first byte, in the order in which they are tried
  split
  · rw [skip_one_within h]
    rfl
  · exact markedNumber_within _ h
  · split
    · exact quoted_within h
    · split
      · exact anonymous_within h
      · split
        · exact hash_within h
        · split
          · exact angle_within _ _ _ h (by decide)
          · split
            · exact angle_within _ _ _ h (by decide)
            · split
              · exact number_within _
              · split
                · exact word_within h
                · rw [skip_one_within h]
                  rfl

end Cursor

/-! ### Lexemes that end a line -/

namespace Lexeme

/-- The end of a line or of the input. -/
def isEnding {ν : Type} : Lexeme ν → Bool
  | lineEnd | endOfInput => true
  | _ => false

/-- A lexeme of a line: it ends nothing, and if it is text in quotes, there is some. -/
def isProper {ν : Type} : Lexeme ν → Bool
  | lineEnd | endOfInput | quoted [] => false
  | _ => true

variable {l : Lexeme Spelling}

theorem isEnding_of_isProper (h : l.isProper = true) : l.isEnding = false := by
  cases l <;> first | rfl | cases h

theorem isProper_of_sign? {c : Char} (h : sign? c = some l) : l.isProper = true := by
  unfold sign? at h
  split at h <;> cases h <;> rfl

theorem isProper_of_keyword? {word : String} (h : keyword? word = some l) : l.isProper = true := by
  have hreserved : ∀ entry ∈ (reserved : List (String × Lexeme Spelling)),
      entry.2.isProper = true := by
    decide
  unfold keyword? at h
  split at h
  · cases h
    rfl
  · obtain ⟨before, after, heq, -⟩ := List.lookup_eq_some_iff.mp h
    refine hreserved (word, l) ?_
    rw [heq]
    simp

end Lexeme

/-- What is scanned on a line is a lexeme of it, and the cursor is still on the line. -/
structure Scanned.Regular (c : Cursor) (x : Scanned) : Prop where
  fresh : x.2.fresh = c.fresh
  lexeme : ∀ l, x.1 = .ok l → l.isProper = true

theorem Scanned.Regular.isEnding {c : Cursor} {x : Scanned} {l : Lexeme Spelling}
    (h : Regular c x) (hx : x.1 = .ok l) : l.isEnding = false :=
  Lexeme.isEnding_of_isProper (h.lexeme l hx)

theorem Scanned.Regular.of_ok {c c' : Cursor} {l : Lexeme Spelling} (hfresh : c'.fresh = c.fresh)
    (hl : l.isProper = true) : Regular c (.ok l, c') where
  fresh := hfresh
  lexeme := by
    rintro _ ⟨⟩
    exact hl

theorem Scanned.Regular.of_error {c c' : Cursor} {e : ScanError} (hfresh : c'.fresh = c.fresh) :
    Regular c (.error e, c') where
  fresh := hfresh
  lexeme := by rintro _ ⟨⟩

namespace Cursor

open Scanned (Regular)

theorem quoted_regular (c : Cursor) : Regular c c.quoted := by
  unfold quoted
  dsimp only
  split
  · split
    · exact .of_error rfl
    · next hsome =>
      refine .of_ok rfl ?_
      cases hbytes : (c.skip 1).rest.takeWhile Byte.isQuotable with
      | nil =>
        rw [hbytes] at hsome
        exact absurd rfl hsome
      | cons b bytes => rfl
  · exact .of_error rfl

theorem number_regular (radix : Radix) (c : Cursor) : Regular c (c.number radix) := by
  unfold number
  dsimp only
  split
  · split
    · exact .of_ok rfl rfl
    · exact .of_error rfl
  · exact .of_error rfl

theorem markedNumber_regular (radix : Radix) (c : Cursor) : Regular c (c.markedNumber radix) := by
  unfold markedNumber
  dsimp only
  split
  · have h := number_regular radix ((c.skip 1).skipWhile Byte.isSpacing)
    exact ⟨h.fresh, h.lexeme⟩
  · exact .of_error rfl

theorem anonymous_regular (c : Cursor) : Regular c c.anonymous := by
  unfold anonymous
  dsimp only
  split <;> exact .of_ok rfl rfl

theorem hash_regular (c : Cursor) : Regular c c.hash := by
  unfold hash
  dsimp only
  split <;> exact .of_ok rfl rfl

theorem angle_regular (sign : Char) (single double : Operator) (c : Cursor) :
    Regular c (c.angle sign single double) := by
  unfold angle
  dsimp only
  split <;> exact .of_ok rfl rfl

theorem word_regular (c : Cursor) : Regular c c.word := by
  unfold word
  dsimp only
  split
  · next hkey => exact .of_ok rfl (Lexeme.isProper_of_keyword? hkey)
  · split
    · exact .of_error rfl
    · split <;> exact .of_ok rfl rfl

theorem Scans.regular {c : Cursor} {x : Scanned} (h : c.Scans x) : Regular c x := by
  cases h with
  | sign hsign => exact .of_ok rfl (Lexeme.isProper_of_sign? hsign)
  | marked radix => exact markedNumber_regular radix c
  | quoted => exact quoted_regular c
  | anonymous => exact anonymous_regular c
  | hash => exact hash_regular c
  | less => exact angle_regular _ _ _ c
  | greater => exact angle_regular _ _ _ c
  | decimal => exact number_regular _ c
  | word => exact word_regular c
  | illegal => exact .of_error rfl

theorem scan_regular {c : Cursor} (h : c.rest ≠ []) : Regular c c.scan :=
  (scans_scan h).regular

/-! ### The next token on a line -/

/-- A lexeme or an error at a place. -/
def located (p : Position) :
    Except ScanError (Lexeme Spelling) → Except (ScanError × Position) (Token Spelling)
  | .ok l => .ok ⟨l, p⟩
  | .error e => .error (e, p)

variable {c : Cursor} {f : Frame}

/-- Where no line end stands ahead, the next token is scanned behind the blanks. -/
theorem next_eq_scan (h : c.toToken.sees Byte.isLineEnd = false) :
    c.next = (located c.toToken.position c.toToken.begin.scan.1, c.toToken.begin.scan.2) := by
  unfold next
  dsimp only
  rw [h, Bool.and_false, if_neg Bool.false_ne_true]
  split
  · next hscan => rw [hscan]; rfl
  · next hscan => rw [hscan]; rfl

theorem toToken_eq_skipBlanks (h : c.fresh = false) : c.toToken = c.skipBlanks := by
  rw [toToken, h, if_neg Bool.false_ne_true]

theorem begin_eq_self (h : c.fresh = false) : c.begin = c := by
  obtain ⟨rest, position, fresh, statement⟩ := c
  cases h
  rfl

theorem skipBlanks_fresh (c : Cursor) : c.skipBlanks.fresh = c.fresh := by
  unfold skipBlanks
  dsimp only
  split <;> rfl

theorem toToken_within (h : c.fresh = false) : (c.within f).toToken = c.skipBlanks.within f := by
  have hwithin : (c.within f).fresh = false := h
  rw [toToken_eq_skipBlanks hwithin, skipBlanks_within]

/-- The next token of `c` is the first of the text of `d`, in a frame. -/
structure Opens (c d : Cursor) (f : Frame) : Prop where
  fresh : d.fresh = false
  line : Byte.OneLine d.rest
  solid : d.rest ≠ []
  next : c.next = (located ⟨f.number, d.position.column⟩ d.scan.1, d.scan.2.within f)

/-- A token on a line is the same in every frame. -/
theorem opens_within (hfresh : c.fresh = false) (hline : Byte.OneLine c.rest)
    (hsolid : c.skipBlanks.rest ≠ []) : (c.within f).Opens c.skipBlanks f := by
  refine ⟨c.skipBlanks_fresh.trans hfresh, hline.of_suffix c.skipBlanks_suffix, hsolid, ?_⟩
  have htoken := toToken_within (f := f) hfresh
  have hsees : (c.within f).toToken.sees Byte.isLineEnd = false := by
    obtain ⟨b, rest, hrest⟩ := List.exists_cons_of_ne_nil hsolid
    have hb : b ∈ c.rest := c.skipBlanks_suffix.subset (by rw [hrest]; exact List.mem_cons_self)
    rw [htoken]
    simp [sees, within, hrest, hline b hb]
  have hbegin : (c.skipBlanks.within f).begin = c.skipBlanks.within f :=
    begin_eq_self (c.skipBlanks_fresh.trans hfresh)
  rw [next_eq_scan hsees, htoken, hbegin, scan_within hsolid]
  rfl

end Cursor

namespace Frame

/-- The token at the end of the line. -/
def ending {ν : Type} (f : Frame) : Lexeme ν :=
  if f.behind = [] then .endOfInput else .lineEnd

/-- Where reading the token at the end of the line leads. -/
def beyond (f : Frame) (c : Cursor) : Cursor :=
  if f.behind = [] then c.within f else f.passed

theorem isEnding_ending {ν : Type} (f : Frame) : (f.ending : Lexeme ν).isEnding = true := by
  unfold ending
  split <;> rfl

theorem bind_ending (f : Frame) (scopes : Scopes) :
    (f.ending : Lexeme Spelling).bind scopes = (f.ending, scopes) := by
  unfold ending
  split <;> rfl

end Frame

namespace Cursor

variable {c : Cursor} {f : Frame}

/-- Where the text of a line has ended, the line ends. -/
theorem next_within_of_blank (hfresh : c.fresh = false) (hblank : c.skipBlanks.rest = []) :
    (c.within f).next =
      (.ok ⟨f.ending, ⟨f.number, c.skipBlanks.position.column⟩⟩, f.beyond c.skipBlanks) := by
  have htoken := toToken_within (f := f) hfresh
  have hstill : c.skipBlanks.fresh = false := c.skipBlanks_fresh.trans hfresh
  have hrest : (c.skipBlanks.within f).rest = f.behind := by simp [within, hblank]
  cases hbehind : f.behind with
  | nil =>
    -- nothing is behind the line: the end of the input is the token, and it stays ahead
    have hsees : (c.within f).toToken.sees Byte.isLineEnd = false := by
      simp [htoken, sees, hrest, hbehind]
    have hbegin : (c.skipBlanks.within f).begin = c.skipBlanks.within f := begin_eq_self hstill
    have hscan : (c.skipBlanks.within f).scan = (.ok .endOfInput, c.skipBlanks.within f) :=
      scan_of_nil (hrest.trans hbehind)
    rw [next_eq_scan hsees, htoken, hbegin, hscan]
    simp only [Frame.ending, Frame.beyond, hbehind, if_true]
    rfl
  | cons b rest =>
    -- a line end is the token, and reading goes on behind it
    have hend : Byte.isLineEnd b = true := f.closed b (by rw [hbehind]; rfl)
    have hsees : (c.skipBlanks.within f).sees Byte.isLineEnd = true := by
      simp [sees, hrest, hbehind, hend]
    have hwithin : (c.skipBlanks.within f).fresh = false := hstill
    unfold next
    dsimp only
    rw [htoken, hsees, hwithin]
    simp only [Frame.ending, Frame.beyond, Frame.passed, hbehind]
    simp [newline, within, Position.nextLine, hblank, hbehind]

/-! ### The start of a statement -/

/-- The frame of the line that the cursor is on. -/
def frame (c : Cursor) : Frame where
  number := c.position.line
  column := c.statement.column
  behind := c.rest.dropWhile fun b => !Byte.isLineEnd b
  closed := by
    intro b hb
    have hhead := List.head?_dropWhile_not (fun b => !Byte.isLineEnd b) c.rest
    rw [hb] at hhead
    simpa using hhead

/-- The cursor over the text of its line alone. -/
def bare (c : Cursor) : Cursor :=
  { c with rest := c.rest.takeWhile fun b => !Byte.isLineEnd b }

theorem bare_within_frame (h : c.statement.line = c.position.line) :
    c.bare.within c.frame = c := by
  obtain ⟨rest, ⟨line, column⟩, fresh, ⟨line', column'⟩⟩ := c
  cases h
  simp [within, bare, frame, List.takeWhile_append_dropWhile]

theorem oneLine_bare (c : Cursor) : Byte.OneLine c.bare.rest := by
  intro b hb
  simpa using List.all_eq_true.mp List.all_takeWhile b hb

/-- The statement that is being read stands on the line of the cursor. -/
def Coherent (c : Cursor) : Prop :=
  c.fresh = false → c.statement.line = c.position.line

/-- Something other than a line end stands ahead. -/
def Ready (c : Cursor) : Prop :=
  c.toToken.sees Byte.isLineEnd = false

/-- The cursor where the next token begins. -/
def atToken (c : Cursor) : Cursor :=
  c.toToken.begin

theorem afterBlankLines_head {comment : Bool} {bytes rest : List UInt8} {p : Position} {b : UInt8}
    (h : (afterBlankLines comment bytes p).1 = b :: rest) :
    Byte.isLineEnd b = false ∧ Byte.startsComment b = false := by
  fun_induction afterBlankLines comment bytes p with
  | case1 => cases h
  | case2 _ _ _ ih => exact ih h
  | case3 _ _ _ _ _ _ ih => exact ih h
  | case4 _ _ _ _ _ _ _ ih => exact ih h
  | case5 _ _ _ _ _ _ _ _ ih => exact ih h
  | case6 _ _ _ _ _ hend _ hcomment =>
    cases h
    exact ⟨by simpa using hend, by simpa using hcomment⟩

/-- Empty lines are passed over at the start of a statement. -/
theorem ready_of_fresh (h : c.fresh = true) : c.Ready := by
  unfold Ready toToken
  rw [if_pos h, sees]
  cases hrest : c.skipBlankLines.rest with
  | nil => rfl
  | cons b rest => exact (afterBlankLines_head hrest).1

theorem toToken_fresh (c : Cursor) : c.toToken.fresh = c.fresh := by
  unfold toToken
  split
  · rfl
  · exact c.skipBlanks_fresh

/-- A line end that is a token is read behind another token. -/
theorem next_eq_newline (h : c.toToken.sees Byte.isLineEnd = true) :
    c.next = (.ok ⟨.lineEnd, c.toToken.position⟩, { c.toToken.newline with fresh := true }) := by
  have hfresh : c.toToken.fresh = false := by
    rw [toToken_fresh]
    cases hfresh : c.fresh with
    | false => rfl
    | true =>
      rw [ready_of_fresh hfresh] at h
      cases h
  unfold next
  dsimp only
  rw [hfresh, h]
  rfl

theorem skipBlanks_line (c : Cursor) :
    c.skipBlanks.position.line = c.position.line ∧ c.skipBlanks.statement = c.statement := by
  unfold skipBlanks
  dsimp only
  split <;> exact ⟨rfl, rfl⟩

/-- A statement that begins here begins on the line of its first token. -/
theorem Coherent.atToken (h : c.Coherent) :
    c.atToken.statement.line = c.atToken.position.line := by
  cases hfresh : c.fresh with
  | true =>
    have htoken : c.toToken.fresh = true := by rw [toToken, if_pos hfresh]; exact hfresh
    simp [Cursor.atToken, begin, htoken]
  | false =>
    have htoken : c.toToken.fresh = false := by
      rw [toToken_eq_skipBlanks hfresh, skipBlanks_fresh, hfresh]
    obtain ⟨hline, hstatement⟩ := c.skipBlanks_line
    rw [Cursor.atToken, begin_eq_self htoken, toToken_eq_skipBlanks hfresh, hline, hstatement]
    exact h hfresh

/-- A statement can begin at the cursor. -/
structure Fit (c : Cursor) : Prop where
  ready : c.Ready
  coherent : c.Coherent

theorem fit_of_fresh (h : c.fresh = true) : c.Fit where
  ready := ready_of_fresh h
  coherent hnot := by
    rw [h] at hnot
    cases hnot

theorem atToken_within (h : c.fresh = false) : (c.within f).atToken = c.skipBlanks.within f := by
  show (c.within f).toToken.begin = _
  rw [toToken_within h]
  exact begin_eq_self (c.skipBlanks_fresh.trans h)

/-- A token ahead on a line is in the frame of the line. -/
theorem frame_within (hfresh : c.fresh = false) (hline : Byte.OneLine c.rest) :
    (c.within f).atToken.frame = f := by
  have hbehind : (c.skipBlanks.rest ++ f.behind).dropWhile (fun b => !Byte.isLineEnd b) =
      f.behind := Frame.dropWhile_line (hline.of_suffix c.skipBlanks_suffix)
  rw [atToken_within hfresh]
  unfold frame within
  simp only [hbehind]

theorem fit_within (hfresh : c.fresh = false) (hline : Byte.OneLine c.rest)
    (hsolid : c.skipBlanks.rest ≠ []) : (c.within f).Fit := by
  refine ⟨?_, fun _ => rfl⟩
  obtain ⟨b, rest, hrest⟩ := List.exists_cons_of_ne_nil hsolid
  have hb : b ∈ c.rest := c.skipBlanks_suffix.subset (by rw [hrest]; exact List.mem_cons_self)
  show (c.within f).toToken.sees _ = false
  rw [toToken_within hfresh]
  simp [sees, within, hrest, hline b hb]

/-- At the end of the input there is no other token. -/
theorem next_of_ended (h : c.atToken.rest = []) :
    c.next = (.ok ⟨.endOfInput, c.atToken.position⟩, c.atToken) := by
  have hrest : c.toToken.rest = [] := h
  have hscan : c.toToken.begin.scan = (.ok .endOfInput, c.toToken.begin) := scan_of_nil hrest
  rw [next_eq_scan (by simp [sees, hrest]), hscan]
  rfl

/-- The first token of a statement is scanned from the text of its line, and reading goes on
there. -/
theorem opens_of_fit {d : Cursor} (hfit : c.Fit) (h : c.atToken.rest ≠ [])
    (hfresh : d.fresh = false) (hrest : d.rest = c.atToken.bare.rest)
    (hcolumn : d.position.column = c.atToken.position.column) : c.Opens d c.atToken.frame := by
  have hsolid : d.rest ≠ [] := by
    obtain ⟨b, rest, hb⟩ := List.exists_cons_of_ne_nil h
    have hend : Byte.isLineEnd b = false := by
      have hsees : c.atToken.sees Byte.isLineEnd = false := hfit.ready
      simpa [sees, hb] using hsees
    simp [hrest, bare, hb, hend]
  refine ⟨hfresh, hrest ▸ c.atToken.oneLine_bare, hsolid, ?_⟩
  -- only the text and the column of `d` are used in the frame
  have hwithin : d.within c.atToken.frame = c.atToken := by
    refine Eq.trans ?_ (bare_within_frame hfit.coherent.atToken)
    rw [within, hrest, hcolumn, hfresh]
    rfl
  have hscan : c.toToken.begin.scan = Scanned.within d.scan c.atToken.frame := by
    rw [← scan_within hsolid, hwithin]
    rfl
  rw [next_eq_scan hfit.ready, hscan, hcolumn]
  rfl

/-! ### Behind the line -/

end Cursor

/-- The line is left behind: reading goes on with the next line, or the input has ended. -/
inductive Frame.Cleared (f : Frame) (c : Cursor) : Prop where
  | passed (more : f.behind ≠ []) (cursor : c = f.passed)
  | ended (last : f.behind = []) (rest : c.atToken.rest = []) (line : c.position.line = f.number)
      (coherent : c.Coherent)

/-- Reading goes on at the start of the next line, or at the end of the input. -/
structure Frame.Resumed (f : Frame) (c : Cursor) : Prop where
  fresh : c.fresh = true
  rest : c.rest = Byte.dropLineEnd f.behind
  passed : f.behind ≠ [] → c = f.passed
  line : f.behind = [] → c.position.line = f.number

namespace Cursor

variable {c : Cursor} {f : Frame}

theorem atToken_rest_of_nil (h : c.rest = []) : c.atToken.rest = [] := by
  have hsuffix := c.toToken_suffix
  rw [h, List.suffix_nil] at hsuffix
  exact hsuffix

/-- Recovery leads to the start of the next line. -/
theorem resumed_recover (hfresh : c.fresh = false) (hline : Byte.OneLine c.rest) :
    f.Resumed (c.within f).recover := by
  have hdrop : (c.within f).skipLine.rest = f.behind := Frame.dropWhile_line hline
  have hnot : ¬ (c.within f).fresh = true := by simp [within, hfresh]
  unfold recover
  rw [if_neg hnot]
  dsimp only
  by_cases hbehind : f.behind = []
  · rw [if_pos (by rw [hdrop, hbehind]; rfl)]
    refine ⟨rfl, ?_, fun hmore => absurd hbehind hmore, fun _ => rfl⟩
    rw [hbehind] at hdrop ⊢
    exact hdrop
  · rw [if_neg (by rw [hdrop, List.isEmpty_iff]; exact hbehind)]
    have hpassed : ({ (c.within f).skipLine.newline with fresh := true } : Cursor) = f.passed := by
      simp only [newline, hdrop]
      rfl
    rw [hpassed]
    exact ⟨rfl, rfl, fun _ => rfl, fun hlast => absurd hlast hbehind⟩

end Cursor

namespace Frame

variable {f : Frame} {c : Cursor}

/-- A statement can begin behind a line. -/
theorem Cleared.fit (h : f.Cleared c) : c.Fit := by
  cases h with
  | passed more cursor => exact cursor ▸ Cursor.fit_of_fresh rfl
  | ended last rest line coherent =>
    refine ⟨?_, coherent⟩
    show c.atToken.sees _ = false
    simp [Cursor.sees, rest]

theorem Cleared.le_line (h : f.Cleared c) : f.number ≤ c.position.line := by
  cases h with
  | passed more cursor => exact cursor ▸ Nat.le_succ _
  | ended last rest line => exact Nat.le_of_eq line.symm

theorem resumed_passed (h : f.behind ≠ []) : f.Resumed f.passed :=
  ⟨rfl, rfl, fun _ => rfl, fun hlast => absurd hlast h⟩

theorem Resumed.cleared (h : f.Resumed c) : f.Cleared c := by
  by_cases hbehind : f.behind = []
  · have hrest : c.rest = [] := by
      rw [h.rest, hbehind]
      rfl
    refine .ended hbehind (Cursor.atToken_rest_of_nil hrest) (h.line hbehind) fun hfresh => ?_
    rw [h.fresh] at hfresh
    cases hfresh
  · exact .passed hbehind (h.passed hbehind)

end Frame

end Assembler6502
