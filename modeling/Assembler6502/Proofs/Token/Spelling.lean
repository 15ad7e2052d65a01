/-
Tokens do not depend on the spelling.

A cursor reads the same token in a text as in its canonical spelling, and the
texts behind the token have the same canonical spelling again.

* **`Cursor.canonical`** — the cursor in the canonical spelling;
* **`scan_canonical`** — the lexeme at the cursor;
* **`next_canonical`** — the next token;
* **`recover_canonical`** — the next line, after a statement that failed.

Design notes.  A line end may be two bytes and its canonical spelling is one,
so cursors in both texts agree in their positions and not in the number of bytes
that they have read.
-/
import Assembler6502.Proofs.Token.Canonical

namespace Assembler6502

open Assembler6502.Byte

/-! ### Blanks -/

namespace Cursor

theorem afterBlankLines_of_lineEnd {b : UInt8} (h : isLineEnd b = true) (comment : Bool)
    (rest : List UInt8) (p : Position) :
    afterBlankLines comment (b :: rest) p =
      afterBlankLines false (dropLineEnd (b :: rest)) p.nextLine := by
  by_cases hpair : ∃ more, b = 0x0d ∧ rest = 0x0a :: more
  · obtain ⟨more, rfl, rfl⟩ := hpair
    rfl
  · have hsingle : ∀ more, b = 0x0d → rest = 0x0a :: more → False :=
      fun more hb hrest => hpair ⟨more, hb, hrest⟩
    rw [afterBlankLines.eq_3 _ _ _ _ hsingle, dropLineEnd, if_pos h, if_pos h]
    exact hsingle

theorem afterBlankLines_of_inline {b : UInt8} (h : isLineEnd b = false) (comment : Bool)
    (rest : List UInt8) (p : Position) :
    afterBlankLines comment (b :: rest) p =
      if comment || isBlank b then afterBlankLines comment rest (p.right 1)
      else if startsComment b then afterBlankLines true rest (p.right 1)
      else (b :: rest, p) := by
  rw [afterBlankLines, h]
  · rfl
  · rintro more rfl rfl
    cases h

theorem afterBlankLines_spell {b : UInt8} (h : isLineEnd b = false) (stretch : Stretch)
    (comment : Bool) (rest : List UInt8) (p : Position) :
    afterBlankLines comment (stretch.spell b :: rest) p =
      if comment || isBlank b then afterBlankLines comment rest (p.right 1)
      else if startsComment b then afterBlankLines true rest (p.right 1)
      else (stretch.spell b :: rest, p) := by
  rw [afterBlankLines_of_inline (by rwa [caseless_isLineEnd.spell]), inside_blank.caseless.spell,
    caseless_startsComment.spell]

/-- What the text after a comment sign or without one belongs to. -/
def stretchOf (comment : Bool) : Stretch :=
  if comment then .remark else .code

theorem afterBlankLines_canonical (comment : Bool) (text : List UInt8) (p : Position) :
    afterBlankLines comment (Byte.canonical (stretchOf comment) text) p =
      (Byte.canonical .code (afterBlankLines comment text p).1,
        (afterBlankLines comment text p).2) := by
  fun_induction afterBlankLines comment text p with
  | case1 => rfl
  | case2 comment rest p ih =>
    rw [Byte.canonical, afterBlankLines_of_lineEnd rfl]
    exact ih
  | case3 comment b rest p hpair hend ih =>
    rw [Byte.canonical.eq_3 _ _ _ hpair, if_pos hend, afterBlankLines_of_lineEnd rfl]
    exact ih
  | case4 comment b rest p hpair hend hskip ih =>
    have hinline : isLineEnd b = false := by simpa using hend
    have hbehind : (stretchOf comment).behind b rest = stretchOf comment := by
      cases comment with
      | true => rfl
      | false => exact inside_blank.behind b rest hskip
    rw [canonical_of_inline hinline, hbehind, afterBlankLines_spell hinline, if_pos hskip, ih]
  | case5 comment b rest p hpair hend hskip hcomment ih =>
    have hinline : isLineEnd b = false := by simpa using hend
    have hcode : comment = false ∧ isBlank b = false := by simpa using hskip
    have hquote : (char b == '"') = false := by
      simp only [startsComment, Bool.or_eq_true, beq_iff_eq] at hcomment
      rcases hcomment with h | h <;> rw [h] <;> rfl
    have hbehind : (stretchOf comment).behind b rest = stretchOf true := by
      rw [hcode.1]
      simp [stretchOf, Stretch.behind, hquote, hcomment]
    rw [canonical_of_inline hinline, hbehind, afterBlankLines_spell hinline, if_neg hskip,
      if_pos hcomment, ih]
  | case6 comment b rest p hpair hend hskip hcomment =>
    have hinline : isLineEnd b = false := by simpa using hend
    have hcode : stretchOf comment = .code := by
      rw [show comment = false by simp_all]
      rfl
    rw [hcode, canonical_of_inline hinline, afterBlankLines_spell hinline, if_neg hskip,
      if_neg hcomment]

/-! ### Moves -/

/-- The cursor in the canonical spelling of what is left to read. -/
def canonical (c : Cursor) : Cursor :=
  { c with rest := Byte.canonical .code c.rest }

variable {c : Cursor} {p : UInt8 → Bool}

theorem skipWhile_canonical (h : Inside .code p) :
    c.canonical.skipWhile p = (c.skipWhile p).canonical := by
  simp only [skipWhile, canonical, takeWhile_canonical h, dropWhile_canonical h, List.length_map]

theorem skipLine_canonical : c.canonical.skipLine = c.skipLine.canonical := by
  simp only [skipLine, skipWhile, canonical, dropWhile_inline_canonical,
    length_takeWhile_inline_canonical]

theorem sees_canonical (hcase : Caseless p) (hend : p 0x0a = p 0x0d) :
    c.canonical.sees p = c.sees p :=
  any_head?_canonical hcase hend .code c.rest

theorem sees_inside (h : Inside .code p) : c.canonical.sees p = c.sees p :=
  h.any_head? c.rest

theorem sees_mono {q : UInt8 → Bool} (h : ∀ b, p b = true → q b = true) (hp : c.sees p = true) :
    c.sees q = true := by
  unfold sees at hp ⊢
  cases hhead : c.rest.head? with
  | none =>
    rw [hhead] at hp
    cases hp
  | some b =>
    rw [hhead] at hp
    exact h b hp

theorem skip_canonical (h : c.sees isPlain = true) : c.canonical.skip 1 = (c.skip 1).canonical := by
  unfold sees at h
  cases hrest : c.rest with
  | nil =>
    rw [hrest] at h
    cases h
  | cons b rest =>
    have hb : isPlain b = true := by rwa [hrest] at h
    simp only [skip, canonical, hrest, canonical_of_inside inside_plain hb, List.drop_succ_cons,
      List.drop_zero]

theorem newline_canonical (h : c.sees isLineEnd = true) :
    c.canonical.newline = c.newline.canonical := by
  simp only [newline, canonical, dropLineEnd_canonical h]

theorem skipBlanks_canonical : c.canonical.skipBlanks = c.skipBlanks.canonical := by
  unfold skipBlanks
  dsimp only
  rw [skipWhile_canonical inside_blank, sees_canonical caseless_startsComment rfl]
  split
  · exact skipLine_canonical
  · rfl

theorem skipBlankLines_canonical : c.canonical.skipBlankLines = c.skipBlankLines.canonical := by
  have hblank := afterBlankLines_canonical false c.rest c.position
  unfold skipBlankLines canonical
  dsimp only
  rw [show Byte.canonical .code c.rest = Byte.canonical (stretchOf false) c.rest from rfl, hblank]

theorem toToken_canonical : c.canonical.toToken = c.toToken.canonical := by
  unfold toToken
  rw [show c.canonical.fresh = c.fresh from rfl]
  split
  · exact skipBlankLines_canonical
  · exact skipBlanks_canonical

theorem isEmpty_canonical : c.canonical.rest.isEmpty = c.rest.isEmpty := by
  unfold canonical
  cases hrest : c.rest with
  | nil => rfl
  | cons b rest =>
    cases hb : isLineEnd b with
    | true =>
      rw [canonical_of_lineEnd hb]
      rfl
    | false =>
      rw [canonical_of_inline hb]
      rfl

theorem skipLine_sees (h : c.skipLine.rest.isEmpty = false) :
    c.skipLine.sees isLineEnd = true := by
  have hhead := List.head?_dropWhile_not (fun b => !isLineEnd b) c.rest
  unfold skipLine skipWhile at h ⊢
  unfold sees
  cases hrest : c.rest.dropWhile (fun b => !isLineEnd b) with
  | nil =>
    rw [hrest] at h
    cases h
  | cons b rest =>
    rw [hrest] at hhead
    simpa using hhead

/-- Recovery leads to the same line. -/
theorem recover_canonical : c.canonical.recover = c.recover.canonical := by
  unfold recover
  rw [show c.canonical.fresh = c.fresh from rfl, skipLine_canonical]
  split
  · rfl
  · dsimp only
    rw [isEmpty_canonical]
    split
    · rfl
    · next hmore =>
      rw [newline_canonical (skipLine_sees (by simpa using hmore))]
      rfl

/-! ### Lexemes -/

end Cursor

/-- A lexeme or an error, and the cursor behind it in the canonical spelling. -/
def Scanned.canonical (x : Scanned) : Scanned :=
  (x.1, x.2.canonical)

namespace Cursor

variable {c : Cursor}

theorem number_canonical (radix : Radix) :
    c.canonical.number radix = Scanned.canonical (c.number radix) := by
  have hdigits : c.canonical.rest.takeWhile (fun b => radix.isDigit (folded b)) =
      (c.rest.takeWhile fun b => radix.isDigit (folded b)).map lower :=
    takeWhile_canonical (inside_digit radix) c.rest
  have hextra : ∀ d : Cursor, d.canonical.rest.takeWhile isWord =
      (d.rest.takeWhile isWord).map lower := fun d => takeWhile_canonical inside_word d.rest
  have hfolded : ∀ bytes : List UInt8, (bytes.map lower).map folded = bytes.map folded := by
    intro bytes
    simp only [List.map_map, Function.comp_def, folded_lower]
  unfold number Scanned.canonical
  simp only [hdigits, hextra, skipWhile_canonical (inside_digit radix),
    skipWhile_canonical inside_word, List.isEmpty_map, hfolded, ← List.map_append,
    foldedText_map_lower]
  split
  · split <;> rfl
  · rfl

theorem markedNumber_canonical (radix : Radix) (h : c.sees isPlain = true) :
    c.canonical.markedNumber radix = Scanned.canonical (c.markedNumber radix) := by
  unfold markedNumber
  simp only [skip_canonical h, skipWhile_canonical inside_spacing,
    sees_inside (inside_digit radix)]
  split
  · exact number_canonical radix
  · rfl

theorem angle_canonical {sign : Char} (single double : Operator) (h : c.sees isPlain = true)
    (hsign : sign.isAlpha = false) (hplain : ∀ b, (char b == sign) = true → isPlain b = true) :
    c.canonical.angle sign single double = Scanned.canonical (c.angle sign single double) := by
  unfold angle Scanned.canonical
  simp only [skip_canonical h, sees_inside (inside_char hsign hplain)]
  split
  · next hdouble => rw [skip_canonical (sees_mono hplain hdouble)]
  · rfl

theorem hash_canonical (h : c.sees isPlain = true) :
    c.canonical.hash = Scanned.canonical c.hash := by
  have hplain : ∀ b, folded b ∈ "#include".toList → isPlain b = true :=
    forall_of_forall_lt (by decide +kernel)
  obtain ⟨hiff, hdrop⟩ := take_canonical "#include".toList hplain c.rest
  have htext : ∀ text : List UInt8, foldedText (text.take "#include".length) = "#include" ↔
      (text.take "#include".toList.length).map folded = "#include".toList := by
    intro text
    rw [foldedText, ← String.toList_inj, String.toList_ofList]
    rfl
  unfold hash Scanned.canonical
  dsimp only
  rw [skip_canonical h]
  by_cases hinclude : foldedText (c.rest.take "#include".length) = "#include"
  · have hspelled : foldedText (c.canonical.rest.take "#include".length) = "#include" :=
      (htext _).mpr (hiff.mpr ((htext _).mp hinclude))
    have hskip : c.canonical.skip "#include".length = (c.skip "#include".length).canonical := by
      simp only [skip, canonical]
      exact congrArg (Cursor.mk · _ _ _) (hdrop ((htext _).mp hinclude))
    rw [hskip, sees_inside inside_word]
    simp only [hinclude, hspelled]
    split <;> rfl
  · have hspelled : foldedText (c.canonical.rest.take "#include".length) ≠ "#include" :=
      fun heq => hinclude ((htext _).mpr (hiff.mp ((htext _).mp heq)))
    simp [hinclude, hspelled]

theorem anonymous_of_not_plain (h : (c.skip 1).sees isPlain = false) :
    c.anonymous = (.ok .anonymous, c.skip 1) := by
  have hplain : ∀ b, folded b ∈ ['f', '+', 'b', '-', ':'] → isPlain b = true :=
    forall_of_forall_lt (by decide +kernel)
  unfold anonymous
  dsimp only
  cases hhead : (c.skip 1).rest.head? with
  | none => rfl
  | some b =>
    have hb : isPlain b = false := by rwa [sees, hhead] at h
    have hne : ∀ x ∈ ['f', '+', 'b', '-', ':'], folded b ≠ x := by
      rintro x hx rfl
      rw [hplain b hx] at hb
      cases hb
    simp only [List.forall_mem_cons] at hne
    obtain ⟨hf, hplus, hback, hminus, hcolon, -⟩ := hne
    simp [hf, hplus, hback, hminus, hcolon]

theorem anonymous_canonical (h : c.sees isPlain = true) :
    c.canonical.anonymous = Scanned.canonical c.anonymous := by
  have hsees : (c.canonical.skip 1).sees isPlain = (c.skip 1).sees isPlain := by
    rw [skip_canonical h, sees_inside inside_plain]
  cases hplain : (c.skip 1).sees isPlain with
  | false =>
    rw [anonymous_of_not_plain hplain, anonymous_of_not_plain (hsees.trans hplain),
      skip_canonical h]
    rfl
  | true =>
    -- the byte behind the mark is the same but for its case
    have hhead : (c.skip 1).canonical.rest.head?.map folded =
        (c.skip 1).rest.head?.map folded := by
      unfold sees at hplain
      unfold canonical
      cases hrest : (c.skip 1).rest with
      | nil => rfl
      | cons b rest =>
        rw [hrest] at hplain
        rw [canonical_of_inside inside_plain hplain]
        exact congrArg some (folded_lower b)
    unfold anonymous Scanned.canonical
    simp only [skip_canonical h, hhead, skip_canonical hplain]
    split <;> rfl

theorem word_canonical (h : c.sees isPlain = true) :
    c.canonical.word = Scanned.canonical c.word := by
  have hdot : ∀ b, (char b == '.') = true → isPlain b = true :=
    forall_of_forall_lt (by decide +kernel)
  have hcolon : ∀ b, (char b == ':') = true → isPlain b = true :=
    forall_of_forall_lt (by decide +kernel)
  have htext : c.canonical.rest.take 1 ++ (c.canonical.rest.drop 1).takeWhile isWord =
      (c.rest.take 1 ++ (c.rest.drop 1).takeWhile isWord).map lower := by
    unfold sees at h
    unfold canonical
    cases hrest : c.rest with
    | nil => rfl
    | cons b rest =>
      rw [hrest] at h
      rw [canonical_of_inside inside_plain h, List.map_append]
      exact congrArg ([lower b] ++ ·) (takeWhile_canonical inside_word rest)
  unfold word Scanned.canonical
  simp only [htext, foldedText_map_lower, skip_canonical h, skipWhile_canonical inside_word,
    sees_inside (inside_char rfl hdot), sees_inside (inside_char rfl hcolon)]
  split
  · rfl
  · split
    · rfl
    · split
      · next hsees => rw [skip_canonical (sees_mono hcolon hsees)]
      · rfl

theorem quoted_eq (c : Cursor) :
    c.quoted =
      if closesQuote (c.skip 1).rest then
        (if ((c.skip 1).rest.takeWhile isQuotable).isEmpty then .error .emptyQuote
          else .ok (.quoted ((c.skip 1).rest.takeWhile isQuotable)),
          ((c.skip 1).skipWhile isQuotable).skip 1)
      else (.error .unterminatedQuote, (c.skip 1).skipWhile isQuotable) :=
  rfl

/-- Bytes in quotes are kept, and behind a quote that is not closed the line is passed over. -/
theorem quoted_canonical {b : UInt8} {rest : List UInt8} (hrest : c.rest = b :: rest)
    (hquote : (char b == '"') = true) : c.canonical.quoted = Scanned.canonical c.quoted := by
  have hinline : isLineEnd b = false := isLineEnd_of_quote b hquote
  have hbehind : c.skip 1 = ⟨rest, c.position.right 1, c.fresh, c.statement⟩ := by
    rw [skip, hrest]
    rfl
  have hopened : c.canonical.skip 1 = ⟨Byte.canonical (Stretch.behind .code b rest) rest,
      c.position.right 1, c.fresh, c.statement⟩ := by
    simp only [skip, canonical, hrest, canonical_of_inline hinline, List.drop_succ_cons,
      List.drop_zero]
  have hcode : Stretch.behind .code b rest = if closesQuote rest then .quoted else .remark := by
    simp [Stretch.behind, hquote]
  rw [quoted_eq, quoted_eq, hopened, hbehind, hcode]
  unfold Scanned.canonical
  cases hcloses : closesQuote rest with
  | true =>
    have hinside : Inside .quoted isQuotable := inside_quotable (by decide)
    have hsame : (rest.takeWhile isQuotable).map Stretch.quoted.spell =
        rest.takeWhile isQuotable := List.map_id _
    simp only [if_true, closesQuote_canonical hinside, hcloses, takeWhile_canonical hinside,
      hsame, skipWhile, skip, canonical, dropWhile_canonical hinside,
      drop_canonical_of_closesQuote hcloses]
  | false =>
    have hinside : Inside .remark isQuotable := inside_quotable (by decide)
    simp only [Bool.false_eq_true, if_false, closesQuote_canonical hinside, hcloses,
      takeWhile_canonical hinside, List.length_map, skipWhile, canonical,
      dropWhile_canonical hinside, canonical_of_not_closesQuote hcloses]

theorem scan_eq_quoted {b : UInt8} {rest : List UInt8} (hrest : c.rest = b :: rest)
    (hquote : folded b = '"') : c.scan = c.quoted := by
  unfold scan
  rw [hrest]
  dsimp only
  rw [hquote]
  rfl

theorem scan_canonical (hend : c.sees isLineEnd = false) (hcomment : c.sees startsComment = false) :
    c.canonical.scan = Scanned.canonical c.scan := by
  cases hrest : c.rest with
  | nil =>
    have hspelled : c.canonical.rest = [] := by rw [canonical, hrest]; rfl
    unfold scan
    rw [hspelled, hrest]
    rfl
  | cons b rest =>
    have hinline : isLineEnd b = false := by rwa [sees, hrest] at hend
    have hsign : startsComment b = false := by rwa [sees, hrest] at hcomment
    cases hquote : char b == '"' with
    | true =>
      have hspelled : c.canonical.rest = lower b :: Byte.canonical (.behind .code b rest) rest := by
        rw [canonical, hrest]
        exact canonical_of_inline hinline
      have hfirst : folded b = '"' := (folded_eq_quote_iff b).mpr hquote
      rw [scan_eq_quoted hrest hfirst,
        scan_eq_quoted hspelled ((folded_lower b).trans hfirst)]
      exact quoted_canonical hrest hquote
    | false =>
      have hb : isPlain b = true := by simp [isPlain, isQuotable, hinline, hsign, bne, hquote]
      have hplain : c.sees isPlain = true := by rwa [sees, hrest]
      have hspelled : c.canonical.rest = lower b :: Byte.canonical .code rest := by
        rw [canonical, hrest]
        exact canonical_of_inside inside_plain hb
      unfold scan
      rw [hspelled, hrest]
      dsimp only
      rw [folded_lower]
      -- one case for each kind of first byte, in the order in which they are tried
      split
      · rw [skip_canonical hplain]
        rfl
      · exact markedNumber_canonical _ hplain
      · split
        · next hfirst => exact absurd ((folded_eq_quote_iff b).mp hfirst) (by simp [hquote])
        · split
          · exact anonymous_canonical hplain
          · split
            · exact hash_canonical hplain
            · split
              · exact angle_canonical _ _ hplain rfl (forall_of_forall_lt (by decide +kernel))
              · split
                · exact angle_canonical _ _ hplain rfl (forall_of_forall_lt (by decide +kernel))
                · split
                  · exact number_canonical _
                  · split
                    · exact word_canonical hplain
                    · rw [skip_canonical hplain]
                      rfl

/-! ### Tokens -/

/-- No comment stands where a token is read. -/
theorem toToken_sees_startsComment (c : Cursor) : c.toToken.sees startsComment = false := by
  unfold toToken
  split
  · cases hrest : c.skipBlankLines.rest with
    | nil => simp [sees, hrest]
    | cons b rest => simpa [sees, hrest] using (afterBlankLines_head hrest).2
  · unfold skipBlanks
    dsimp only
    split
    · -- a comment is passed over to the end of its line
      cases hempty : (c.skipWhile isBlank).skipLine.rest.isEmpty with
      | true => simp [sees, List.isEmpty_iff.mp hempty]
      | false =>
        have hends := skipLine_sees hempty
        unfold sees at hends ⊢
        cases hhead : (c.skipWhile isBlank).skipLine.rest.head? with
        | none => rfl
        | some b =>
          rw [hhead] at hends
          rcases eq_of_isLineEnd hends with rfl | rfl <;> rfl
    · next hcomment => simpa using hcomment

/-- The next token is the same in the canonical spelling. -/
theorem next_canonical : c.canonical.next = (c.next.1, c.next.2.canonical) := by
  have htoken : c.canonical.toToken = c.toToken.canonical := toToken_canonical
  have hends : c.toToken.canonical.sees isLineEnd = c.toToken.sees isLineEnd :=
    sees_canonical caseless_isLineEnd rfl
  cases hend : c.toToken.sees isLineEnd with
  | false =>
    have hscan : c.toToken.begin.canonical.scan = Scanned.canonical c.toToken.begin.scan :=
      scan_canonical hend (toToken_sees_startsComment c)
    have hspelled : c.canonical.toToken.sees isLineEnd = false := by rw [htoken, hends, hend]
    rw [next_eq_scan hend, next_eq_scan hspelled, htoken]
    show (located _ c.toToken.begin.canonical.scan.1, c.toToken.begin.canonical.scan.2) = _
    rw [hscan]
    rfl
  | true =>
    rw [next_eq_newline hend, next_eq_newline (by rw [htoken, hends, hend]), htoken,
      newline_canonical hend]
    rfl

end Cursor

end Assembler6502
