/-
Reading a text that is known.

A lexeme is found by the characters that stand ahead; where they stand in the
source does not matter.  So a text is followed from point to point, a point
being the characters ahead and whether a line begins there.

* **`Point.Leads`** — from one point to another there is a lexeme;
* **`leads_sign`**, **`leads_word`**, **`leads_hash`**, **`leads_lineEnd`** — the
  lexemes of a listing, numbers apart;
* **`Parser.Yields`** — from one point to another a computation gives a result,
  whatever the scopes are, and leaves these alone.

Design notes.  What can follow a word is part of its lemma, because a letter
behind it would belong to it.
-/
import Assembler6502.Token.Reading

namespace Assembler6502

/-- The characters ahead, and whether a line begins there. -/
structure Point where
  fresh : Bool
  text : List Char

/-- The cursor is at a point. -/
structure Cursor.At (c : Cursor) (point : Point) : Prop where
  fresh : c.fresh = point.fresh
  rest : c.rest = Byte.ofChars point.text

/-- Reading a token leads from one point to another and gives a lexeme. -/
def Point.Leads (a : Point) (lexeme : Lexeme Spelling) (b : Point) : Prop :=
  ∀ c : Cursor, c.At a → ∃ p c', c.next = (.ok ⟨lexeme, p⟩, c') ∧ c'.At b

/-! ### Blanks -/

/-- Bytes of a kind in front of a byte that is not of it. -/
theorem Byte.span_run {p : UInt8 → Bool} {run behind : List UInt8}
    (hrun : ∀ b ∈ run, p b = true) (hbehind : ∀ b ∈ behind.head?, p b = false) :
    (run ++ behind).takeWhile p = run ∧ (run ++ behind).dropWhile p = behind := by
  rw [List.takeWhile_append_of_pos hrun, List.dropWhile_append_of_pos hrun]
  cases behind with
  | nil => simp
  | cons b rest =>
    have hb : ¬ p b = true := by simp [hbehind b rfl]
    rw [List.takeWhile_cons_of_neg hb, List.dropWhile_cons_of_neg hb, List.append_nil]
    exact ⟨rfl, rfl⟩

/-- A byte that is skipped in front of no token. -/
def Byte.isSolid (b : UInt8) : Bool :=
  !isBlank b && !isLineEnd b && !startsComment b

namespace Cursor

variable {c : Cursor} {b : UInt8} {rest : List UInt8}

theorem toToken_space (h : c.rest = 0x20 :: rest) : c.toToken = (c.skip 1).toToken := by
  have hskip : (c.skip 1).rest = rest := by rw [skip, h]; rfl
  cases hfresh : c.fresh with
  | true =>
    have hfresh' : (c.skip 1).fresh = true := hfresh
    rw [toToken, toToken, if_pos hfresh, if_pos hfresh', skipBlankLines, skipBlankLines, hskip, h]
    rfl
  | false =>
    have hfresh' : ¬ (c.skip 1).fresh = true := by rw [skip, hfresh]; decide
    have hblank : Byte.isBlank 0x20 = true := by decide
    have hsame : c.skipWhile Byte.isBlank = (c.skip 1).skipWhile Byte.isBlank := by
      unfold skipWhile
      rw [hskip, h, List.dropWhile_cons_of_pos hblank, List.takeWhile_cons_of_pos hblank]
      simp only [skip, Position.right, List.length_cons, Nat.add_assoc, Nat.add_comm 1]
    rw [toToken, toToken, if_neg (by rw [hfresh]; decide), if_neg hfresh', skipBlanks, skipBlanks,
      hsame]

theorem skipWhile_eq_self {p : UInt8 → Bool} (h : c.rest = b :: rest) (hb : p b = false) :
    c.skipWhile p = c := by
  have hstop : ¬ p b = true := by rw [hb]; decide
  unfold skipWhile
  rw [h, List.dropWhile_cons_of_neg hstop, List.takeWhile_cons_of_neg hstop, ← h]
  rfl

/-- Within a line, blanks and comments are passed over and nothing else. -/
theorem toToken_of_not_fresh (hfresh : c.fresh = false) (h : c.rest = b :: rest)
    (hblank : Byte.isBlank b = false) (hcomment : Byte.startsComment b = false) :
    c.toToken = c := by
  have hsees : c.sees Byte.startsComment = false := by
    rw [sees, h]
    exact hcomment
  rw [toToken, if_neg (by rw [hfresh]; decide), skipBlanks, skipWhile_eq_self h hblank]
  exact if_neg (by rw [hsees]; decide)

/-- A token that stands right ahead is read from there. -/
theorem toToken_solid (h : c.rest = b :: rest) (hb : Byte.isSolid b = true) : c.toToken = c := by
  simp only [Byte.isSolid, Bool.and_eq_true, Bool.not_eq_true'] at hb
  obtain ⟨⟨hblank, hend⟩, hcomment⟩ := hb
  cases hfresh : c.fresh with
  | true =>
    have hlines : afterBlankLines false (b :: rest) c.position = (b :: rest, c.position) := by
      unfold afterBlankLines
      split
      · next heq => cases heq
      · next heq =>
        cases heq
        exact absurd hend (by decide)
      · next heq =>
        cases heq
        simp [hend, hblank, hcomment]
    rw [toToken, if_pos hfresh, skipBlankLines, h, hlines]
    show { c with rest := b :: rest } = c
    rw [← h]
  | false => exact toToken_of_not_fresh hfresh h hblank hcomment

/-- The next token is the lexeme that is scanned where it stands. -/
theorem next_of_scan (h : c.rest = b :: rest) (hb : Byte.isSolid b = true)
    {lexeme : Lexeme Spelling} {c' : Cursor} (hscan : c.begin.scan = (.ok lexeme, c')) :
    c.next = (.ok ⟨lexeme, c.position⟩, c') := by
  have hend : c.sees Byte.isLineEnd = false := by
    simp only [Byte.isSolid, Bool.and_eq_true, Bool.not_eq_true'] at hb
    rw [sees, h]
    exact hb.1.2
  unfold next
  rw [toToken_solid h hb]
  dsimp only
  rw [hend, Bool.and_false, if_neg Bool.false_ne_true, hscan]

end Cursor

namespace Point

variable {fresh : Bool} {text behind : List Char} {lexeme : Lexeme Spelling} {first : Char}

/-- Spaces in front of a token are passed over. -/
theorem Leads.space {b : Point} (h : Leads ⟨fresh, text⟩ lexeme b) :
    Leads ⟨fresh, ' ' :: text⟩ lexeme b := by
  intro c hc
  have hrest : c.rest = 0x20 :: Byte.ofChars text := hc.rest
  obtain ⟨p, c', hnext, hc'⟩ := h (c.skip 1) ⟨hc.fresh, by rw [Cursor.skip, hrest]; rfl⟩
  refine ⟨p, c', ?_, hc'⟩
  rw [← hnext, Cursor.next, Cursor.next, Cursor.toToken_space hrest]

/-- A lexeme is found by scanning from its first character on. -/
theorem leads_of_scan (hsolid : Byte.isSolid first.toUInt8 = true)
    (hscan : ∀ c : Cursor, c.rest = Byte.ofChars (first :: text) →
      ∃ c', c.scan = (.ok lexeme, c') ∧ c'.fresh = c.fresh ∧ c'.rest = Byte.ofChars behind) :
    Leads ⟨fresh, first :: text⟩ lexeme ⟨false, behind⟩ := by
  intro c hc
  obtain ⟨c', hc', hfresh, hrest⟩ := hscan c.begin hc.rest
  exact ⟨c.position, c', Cursor.next_of_scan hc.rest hsolid hc', hfresh, hrest⟩

/-! ### Signs -/

theorem leads_sign (hsolid : Byte.isSolid first.toUInt8 = true)
    (hfolded : Byte.folded first.toUInt8 = first) (hsign : Lexeme.sign? first = some lexeme) :
    Leads ⟨fresh, first :: text⟩ lexeme ⟨false, text⟩ := by
  refine leads_of_scan hsolid fun c hc => ⟨c.skip 1, ?_, rfl, ?_⟩
  · have hrest : c.rest = first.toUInt8 :: Byte.ofChars text := hc
    unfold Cursor.scan
    rw [hrest]
    dsimp only
    rw [hfolded, hsign]
  · rw [Cursor.skip, hc]
    rfl

theorem leads_comma : Leads ⟨fresh, ',' :: text⟩ .comma ⟨false, text⟩ :=
  leads_sign (by decide) (by decide) rfl

theorem leads_leftParen : Leads ⟨fresh, '(' :: text⟩ .leftParen ⟨false, text⟩ :=
  leads_sign (by decide) (by decide) rfl

theorem leads_rightParen : Leads ⟨fresh, ')' :: text⟩ .rightParen ⟨false, text⟩ :=
  leads_sign (by decide) (by decide) rfl

/-! ### Words -/

/-- No letter, digit or underscore follows. -/
def Ends (text : List Char) : Prop :=
  ∀ c ∈ text.head?, Byte.isWord c.toUInt8 = false

/-- A character with which a word is scanned. -/
def startsWord (c : Char) : Bool :=
  (Lexeme.sign? c : Option (Lexeme Spelling)).isNone && (Radix.ofMark? c).isNone &&
    !(['"', '@', '#', '<', '>'].contains c) && !c.isDigit && (c == '.' || c == '_' || c.isAlpha)

/-- Characters that are scanned as one word, in lower case. -/
def isWordText : List Char → Bool
  | [] => false
  | first :: rest => startsWord first && Byte.isSolid first.toUInt8 &&
      rest.all (fun c => Byte.isWord c.toUInt8) &&
      (first :: rest).all fun c => Byte.folded c.toUInt8 == c

theorem Ends.bytes {text : List Char} (h : Ends text) :
    ∀ b ∈ (Byte.ofChars text).head?, Byte.isWord b = false := by
  intro b hb
  rw [Byte.ofChars, List.head?_map] at hb
  obtain ⟨c, hc, rfl⟩ := Option.map_eq_some_iff.mp hb
  exact h c hc

theorem map_folded {text : List Char} (h : ∀ c ∈ text, Byte.folded c.toUInt8 = c) :
    (Byte.ofChars text).map Byte.folded = text := by
  rw [Byte.ofChars, List.map_map]
  exact List.map_congr_left h |>.trans (List.map_id text)

theorem scan_eq_word {c : Cursor} {b : UInt8} {rest : List UInt8} (h : c.rest = b :: rest)
    (hstarts : startsWord (Byte.folded b) = true) : c.scan = c.word := by
  simp only [startsWord, Bool.and_eq_true, Bool.not_eq_true', Option.isNone_iff_eq_none,
    List.contains_eq_mem, decide_eq_false_iff_not, List.mem_cons, List.not_mem_nil, or_false,
    not_or] at hstarts
  obtain ⟨⟨⟨⟨hsign, hmark⟩, hquote, hat, hhash, hless, hgreater⟩, hdigit⟩, hletter⟩ := hstarts
  unfold Cursor.scan
  rw [h]
  dsimp only
  rw [hsign, hmark]
  dsimp only
  rw [if_neg hquote, if_neg hat, if_neg hhash, if_neg hless, if_neg hgreater, hdigit,
    if_neg Bool.false_ne_true]
  exact if_pos (by simpa using hletter)

/-- A word that is a key word is scanned as such. -/
theorem leads_word {word : List Char} (hword : isWordText word = true)
    (hkey : Lexeme.keyword? (String.ofList word) = some lexeme) (hends : Ends behind) :
    Leads ⟨fresh, word ++ behind⟩ lexeme ⟨false, behind⟩ := by
  cases word with
  | nil => cases hword
  | cons first rest =>
    simp only [isWordText, Bool.and_eq_true, List.all_eq_true, beq_iff_eq] at hword
    obtain ⟨⟨⟨hstarts, hsolid⟩, hrest⟩, hfolded⟩ := hword
    refine leads_of_scan hsolid fun c hc => ?_
    have hc : c.rest = first.toUInt8 :: (Byte.ofChars rest ++ Byte.ofChars behind) := by
      rw [hc]
      exact congrArg (List.cons _) List.map_append
    have hbytes : ∀ b ∈ Byte.ofChars rest, Byte.isWord b = true := List.forall_mem_map.mpr hrest
    obtain ⟨htake, hdrop⟩ := Byte.span_run hbytes hends.bytes
    have htext : Byte.foldedText (c.rest.take 1 ++ (c.rest.drop 1).takeWhile Byte.isWord) =
        String.ofList (first :: rest) := by
      rw [hc, List.take_succ_cons, List.take_zero, List.drop_succ_cons, List.drop_zero, htake]
      exact congrArg String.ofList (map_folded hfolded)
    refine ⟨(c.skip 1).skipWhile Byte.isWord, ?_, rfl, ?_⟩
    · rw [scan_eq_word hc (by rw [hfolded first List.mem_cons_self, hstarts]), Cursor.word, htext,
        hkey]
    · show (c.rest.drop 1).dropWhile Byte.isWord = _
      rw [hc]
      exact hdrop

/-- A mark in front of an operand that is no longer word. -/
theorem leads_hash : Leads ⟨fresh, '#' :: '$' :: text⟩ (.operator .hash) ⟨false, '$' :: text⟩ := by
  refine leads_of_scan (by decide) fun c hc => ⟨c.skip 1, ?_, rfl, ?_⟩
  · have hrest : c.rest = 0x23 :: 0x24 :: Byte.ofChars text := hc
    have hword : Byte.foldedText (c.rest.take "#include".length) ≠ "#include" := by
      intro heq
      have hchars := congrArg String.toList heq
      rw [Byte.foldedText, String.toList_ofList, hrest] at hchars
      cases hchars
    have hscan : c.scan = c.hash := by
      unfold Cursor.scan
      rw [hrest]
      rfl
    rw [hscan, Cursor.hash, if_neg (by simp [hword])]
  · rw [Cursor.skip, hc]
    rfl

/-! ### The end of a line and of the input -/

theorem leads_lineEnd : Leads ⟨false, '\n' :: text⟩ .lineEnd ⟨true, text⟩ := by
  intro c hc
  have hrest : c.rest = 0x0a :: Byte.ofChars text := hc.rest
  have hfresh : c.fresh = false := hc.fresh
  have htoken : c.toToken = c := Cursor.toToken_of_not_fresh hfresh hrest (by decide) (by decide)
  have hends : c.sees Byte.isLineEnd = true := by
    rw [Cursor.sees, hrest]
    rfl
  refine ⟨c.position, { c.newline with fresh := true }, ?_, rfl, ?_⟩
  · unfold Cursor.next
    rw [htoken]
    dsimp only
    rw [hfresh, hends]
    rfl
  · show Byte.dropLineEnd c.rest = _
    rw [hrest]
    rfl

theorem leads_endOfInput : Leads ⟨true, []⟩ .endOfInput ⟨false, []⟩ := by
  intro c hc
  have hrest : c.rest = [] := hc.rest
  have htoken : c.toToken = c := by
    rw [Cursor.toToken, if_pos hc.fresh, Cursor.skipBlankLines, hrest, Cursor.afterBlankLines]
    show { c with rest := [] } = c
    rw [← hrest]
  refine ⟨c.position, c.begin, ?_, rfl, hrest⟩
  have hscan : c.begin.scan = (.ok .endOfInput, c.begin) := by
    have hbegin : c.begin.rest = [] := hrest
    rw [Cursor.scan, hbegin]
  unfold Cursor.next
  rw [htoken]
  dsimp only
  rw [Cursor.sees, hrest, hscan]
  cases c.fresh <;> rfl

end Point

/-! ### Computations -/

namespace Parser

/-- From a point to another a computation reads the text and gives a result.  It neither asks for
the scopes nor changes them. -/
def Yields {α : Type} (p : Parser α) (a : Point) (x : α) (b : Point) : Prop :=
  ∀ r : Reading, r.cursor.At a → ∃ cursor, p r = .ok x { r with cursor } ∧ cursor.At b

namespace Yields

variable {α β : Type} {a b c : Point} {x : α} {y : β}

theorem pure (x : α) (a : Point) : Yields (Pure.pure x) a x a :=
  fun r hr => ⟨r.cursor, rfl, hr⟩

theorem bind {p : Parser α} {f : α → Parser β} (h : Yields p a x b) (hf : Yields (f x) b y c) :
    Yields (p >>= f) a y c := by
  intro r hr
  obtain ⟨cursor, hp, hcursor⟩ := h r hr
  obtain ⟨cursor', hy, hcursor'⟩ := hf { r with cursor } hcursor
  refine ⟨cursor', ?_, hcursor'⟩
  show EStateM.bind p f r = _
  rw [EStateM.bind, hp]
  exact hy

variable {l : Lexeme Spelling} {l' : Lexeme Name} {f : Token Name → Parser β}

/-- A token that is no name is the same for all scopes. -/
theorem next_of_leads (h : a.Leads l b) (hl : ∀ scopes, l.bind scopes = (l', scopes)) {r : Reading}
    (hr : r.cursor.At a) :
    ∃ position cursor, Parser.next r = .ok ⟨l', position⟩ { r with cursor } ∧ cursor.At b := by
  obtain ⟨position, cursor, hnext, hcursor⟩ := h r.cursor hr
  refine ⟨position, cursor, ?_, hcursor⟩
  rw [Parser.next, hnext]
  show EStateM.Result.ok (⟨(l.bind r.scopes).1, position⟩ : Token Name)
    { r with cursor, scopes := (l.bind r.scopes).2 } = _
  rw [hl]

theorem next (h : a.Leads l b) (hl : ∀ scopes, l.bind scopes = (l', scopes))
    (hf : ∀ position, Yields (f ⟨l', position⟩) b y c) : Yields (Parser.next >>= f) a y c := by
  intro r hr
  obtain ⟨position, cursor, hread, hcursor⟩ := next_of_leads h hl hr
  obtain ⟨cursor', hy, hcursor'⟩ := hf position { r with cursor } hcursor
  refine ⟨cursor', ?_, hcursor'⟩
  show EStateM.bind Parser.next f r = _
  rw [EStateM.bind, hread]
  exact hy

theorem peek (h : a.Leads l b) (hl : ∀ scopes, l.bind scopes = (l', scopes))
    (hf : ∀ position, Yields (f ⟨l', position⟩) a y c) : Yields (Parser.peek >>= f) a y c := by
  intro r hr
  obtain ⟨position, cursor, hread, -⟩ := next_of_leads h hl hr
  obtain ⟨cursor', hy, hcursor'⟩ := hf position r hr
  refine ⟨cursor', ?_, hcursor'⟩
  have hpeek : Parser.peek r = .ok ⟨l', position⟩ r := by rw [Parser.peek, hread]
  show EStateM.bind Parser.peek f r = _
  rw [EStateM.bind, hpeek]
  exact hy

/-- Asks how many characters are left. -/
theorem remaining {f : Nat → Parser β} (hf : Yields (f a.text.length) a y c) :
    Yields (Parser.remaining >>= f) a y c := by
  intro r hr
  obtain ⟨cursor, hy, hcursor⟩ := hf r hr
  refine ⟨cursor, ?_, hcursor⟩
  show f r.cursor.rest.length r = _
  rw [hr.rest, Byte.ofChars, List.length_map]
  exact hy

end Yields

end Parser

end Assembler6502
