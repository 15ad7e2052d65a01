/-
The canonical spelling of a text.

A text can be written in many ways that make no difference to a reader of
tokens: lines end with a line feed, a carriage return or both, and outside
quotes letters have either case.  The canonical spelling has line feeds and
lower case.

* **`Byte.canonical`** — the canonical spelling;
* **`Byte.Recased`** — letters in other case;
* **`Byte.relined`** — another end on each line;
* **`canonical_relined`** — the canonical spelling is the same then;
* **`takeWhile_canonical`**, **`dropWhile_canonical`** — bytes of a kind at the start of a text.

Design notes.  A quote that is not closed on its line quotes nothing, and in a
comment there are no quotes, so letters behind either count as outside quotes.
-/
import Assembler6502.Proofs.Token.Lines

namespace Assembler6502

namespace Byte

/-! ### Bytes in lower case -/

/-- A letter in lower case; any other byte is itself. -/
def lower (b : UInt8) : UInt8 :=
  (folded b).toUInt8

/-- A byte that leads neither into quotes nor into a comment nor to another line. -/
def isPlain (b : UInt8) : Bool :=
  isQuotable b && !startsComment b

/-- Whether the next quote is on the same line. -/
def closesQuote (text : List UInt8) : Bool :=
  (text.dropWhile isQuotable).head?.any fun b => char b == '"'

theorem forall_of_forall_lt {P : UInt8 → Prop} (h : ∀ n < 256, P (UInt8.ofNat n)) (b : UInt8) :
    P b := by
  have hb := h b.toNat b.toNat_lt
  rwa [UInt8.ofNat_toNat] at hb

theorem char_lower : ∀ b, char (lower b) = folded b :=
  forall_of_forall_lt (by decide +kernel)

theorem folded_lower : ∀ b, folded (lower b) = folded b :=
  forall_of_forall_lt (by decide +kernel)

theorem isLineEnd_of_quote : ∀ b, (char b == '"') = true → isLineEnd b = false :=
  forall_of_forall_lt (by decide +kernel)

theorem folded_eq_quote_iff : ∀ b, folded b = '"' ↔ (char b == '"') = true :=
  forall_of_forall_lt (by decide +kernel)

/-- A kind of bytes to which a letter belongs in both cases or in none. -/
def Caseless (p : UInt8 → Bool) : Prop :=
  ∀ b, p (lower b) = p b

theorem caseless_isLineEnd : Caseless isLineEnd :=
  forall_of_forall_lt (by decide +kernel)

theorem caseless_startsComment : Caseless startsComment :=
  forall_of_forall_lt (by decide +kernel)

theorem folded_eq_or_isAlpha : ∀ b, folded b = char b ∨
    (folded b).isAlpha = true ∧ (char b).isAlpha = true :=
  forall_of_forall_lt (by decide +kernel)

/-- A character that is no letter. -/
theorem caseless_char {x : Char} (h : x.isAlpha = false) : Caseless fun b => char b == x := by
  intro b
  show (char (lower b) == x) = (char b == x)
  rw [char_lower]
  rcases folded_eq_or_isAlpha b with hsame | ⟨hlower, hupper⟩
  · rw [hsame]
  · have hne : ∀ c : Char, c.isAlpha = true → (c == x) = false := by
      intro c hc
      rw [beq_eq_false_iff_ne]
      rintro rfl
      rw [h] at hc
      cases hc
    rw [hne _ hlower, hne _ hupper]

theorem foldedText_map_lower (bytes : List UInt8) :
    foldedText (bytes.map lower) = foldedText bytes := by
  simp only [foldedText, List.map_map, Function.comp_def, folded_lower]

/-! ### Stretches of a line -/

/-- What a byte of a line belongs to. -/
inductive Stretch where
  | code
  | quoted
  | remark
deriving DecidableEq, Repr

namespace Stretch

/-- What the text behind a byte belongs to, on the same line. -/
def behind (stretch : Stretch) (b : UInt8) (rest : List UInt8) : Stretch :=
  match stretch with
  | code =>
    if char b == '"' then (if closesQuote rest then quoted else remark)
    else if startsComment b then remark
    else code
  | quoted => if char b == '"' then code else quoted
  | remark => remark

/-- A byte in its canonical spelling. -/
def spell (stretch : Stretch) (b : UInt8) : UInt8 :=
  if stretch = quoted then b else lower b

end Stretch

/-- The canonical spelling of a text that goes on with a stretch. -/
def canonical : Stretch → List UInt8 → List UInt8
  | _, [] => []
  | _, 0x0d :: 0x0a :: rest => 0x0a :: canonical .code rest
  | stretch, b :: rest =>
    if isLineEnd b then 0x0a :: canonical .code rest
    else stretch.spell b :: canonical (stretch.behind b rest) rest

variable {b : UInt8} {rest text : List UInt8} {stretch : Stretch}

theorem Caseless.spell {p : UInt8 → Bool} (h : Caseless p) (stretch : Stretch) (b : UInt8) :
    p (stretch.spell b) = p b := by
  unfold Stretch.spell
  split
  · rfl
  · exact h b

theorem canonical_of_lineEnd (h : isLineEnd b = true) :
    canonical stretch (b :: rest) = 0x0a :: canonical .code (dropLineEnd (b :: rest)) := by
  by_cases hpair : ∃ more, b = 0x0d ∧ rest = 0x0a :: more
  · obtain ⟨more, rfl, rfl⟩ := hpair
    rfl
  · have hsingle : ∀ more, b = 0x0d → rest = 0x0a :: more → False :=
      fun more hb hrest => hpair ⟨more, hb, hrest⟩
    rw [canonical, dropLineEnd, if_pos h, if_pos h]
    · exact hsingle
    · exact hsingle

theorem canonical_of_inline (h : isLineEnd b = false) :
    canonical stretch (b :: rest) = stretch.spell b :: canonical (stretch.behind b rest) rest := by
  rw [canonical]
  · rw [if_neg (by rw [h]; exact Bool.false_ne_true)]
  · rintro more rfl rfl
    cases h

/-- At a line end it makes no difference what the line was. -/
theorem canonical_congr_of_lineEnd (h : text.head?.all isLineEnd = true) (stretch : Stretch) :
    canonical stretch text = canonical .code text := by
  cases text with
  | nil => rfl
  | cons b rest =>
    have hb : isLineEnd b = true := by simpa using h
    rw [canonical_of_lineEnd hb, canonical_of_lineEnd hb]

theorem dropLineEnd_canonical (h : text.head?.any isLineEnd = true) :
    dropLineEnd (canonical stretch text) = canonical .code (dropLineEnd text) := by
  cases text with
  | nil => cases h
  | cons b rest =>
    rw [canonical_of_lineEnd (by simpa using h)]
    rfl

theorem any_head?_canonical {p : UInt8 → Bool} (hcase : Caseless p) (hend : p 0x0a = p 0x0d)
    (stretch : Stretch) (text : List UInt8) :
    (canonical stretch text).head?.any p = text.head?.any p := by
  cases text with
  | nil => rfl
  | cons b rest =>
    cases hb : isLineEnd b with
    | true =>
      rw [canonical_of_lineEnd hb]
      rcases eq_of_isLineEnd hb with rfl | rfl
      · rfl
      · exact hend
    | false =>
      rw [canonical_of_inline hb]
      exact hcase.spell stretch b

/-! ### Bytes of a kind -/

/-- A kind of bytes that does not lead out of a stretch. -/
structure Inside (stretch : Stretch) (p : UInt8 → Bool) : Prop where
  caseless : Caseless p
  inline : Inline p
  behind : ∀ b rest, p b = true → stretch.behind b rest = stretch

theorem Inside.of_plain {p : UInt8 → Bool} (hcase : Caseless p)
    (h : ∀ b, p b = true → isPlain b = true) : Inside .code p where
  caseless := hcase
  inline := by
    have hnot : ∀ b, isPlain b = false → p b = false := by
      intro b hb
      rw [Bool.eq_false_iff]
      intro hp
      rw [h b hp] at hb
      cases hb
    exact ⟨hnot _ rfl, hnot _ rfl⟩
  behind b rest hb := by
    have hplain := h b hb
    simp only [isPlain, isQuotable, Bool.and_eq_true, Bool.not_eq_true', bne_iff_ne] at hplain
    simp [Stretch.behind, hplain]

theorem inside_plain : Inside .code isPlain :=
  .of_plain (forall_of_forall_lt (by decide +kernel)) fun _ h => h

theorem inside_blank : Inside .code isBlank :=
  .of_plain (forall_of_forall_lt (by decide +kernel)) (forall_of_forall_lt (by decide +kernel))

theorem inside_spacing : Inside .code isSpacing :=
  .of_plain (forall_of_forall_lt (by decide +kernel)) (forall_of_forall_lt (by decide +kernel))

theorem inside_word : Inside .code isWord :=
  .of_plain (forall_of_forall_lt (by decide +kernel)) (forall_of_forall_lt (by decide +kernel))

theorem inside_digit (radix : Radix) : Inside .code fun b => radix.isDigit (folded b) := by
  refine .of_plain (fun b => congrArg radix.isDigit (folded_lower b)) ?_
  cases radix <;> exact forall_of_forall_lt (by decide +kernel)

theorem inside_char {x : Char} (h : x.isAlpha = false)
    (hplain : ∀ b, (char b == x) = true → isPlain b = true) : Inside .code fun b => char b == x :=
  .of_plain (caseless_char h) hplain

theorem inside_quotable (h : stretch ≠ .code) : Inside stretch isQuotable where
  caseless := forall_of_forall_lt (by decide +kernel)
  inline := by decide
  behind b rest hb := by
    have hquote : (char b == '"') = false := by
      simp only [isQuotable, Bool.and_eq_true, bne_iff_ne] at hb
      exact beq_eq_false_iff_ne.mpr hb.2
    cases stretch with
    | code => exact absurd rfl h
    | quoted => simp [Stretch.behind, hquote]
    | remark => rfl

section

variable {p : UInt8 → Bool} (h : Inside stretch p)

include h

theorem Inside.any_head? (text : List UInt8) :
    (canonical stretch text).head?.any p = text.head?.any p :=
  any_head?_canonical h.caseless (h.inline.1.trans h.inline.2.symm) stretch text

theorem canonical_of_inside (hb : p b = true) :
    canonical stretch (b :: rest) = stretch.spell b :: canonical stretch rest := by
  have hinline : isLineEnd b = false := by
    cases hend : isLineEnd b with
    | false => rfl
    | true =>
      rw [h.inline.eq_false hend] at hb
      cases hb
  rw [canonical_of_inline hinline, h.behind b rest hb]

theorem takeWhile_canonical (text : List UInt8) :
    (canonical stretch text).takeWhile p = (text.takeWhile p).map stretch.spell := by
  induction text with
  | nil => rfl
  | cons b rest ih =>
    cases hb : p b with
    | true =>
      rw [canonical_of_inside h hb, List.takeWhile_cons_of_pos (by rwa [h.caseless.spell]),
        List.takeWhile_cons_of_pos hb, ih, List.map_cons]
    | false =>
      have hhead := h.any_head? (b :: rest)
      rw [List.takeWhile_cons_of_neg (by simp [hb])]
      cases hc : canonical stretch (b :: rest) with
      | nil => rfl
      | cons x more =>
        rw [hc] at hhead
        exact List.takeWhile_cons_of_neg (by simpa [hb] using hhead)

theorem dropWhile_canonical (text : List UInt8) :
    (canonical stretch text).dropWhile p = canonical stretch (text.dropWhile p) := by
  induction text with
  | nil => rfl
  | cons b rest ih =>
    cases hb : p b with
    | true =>
      rw [canonical_of_inside h hb, List.dropWhile_cons_of_pos (by rwa [h.caseless.spell]),
        List.dropWhile_cons_of_pos hb, ih]
    | false =>
      have hhead := h.any_head? (b :: rest)
      rw [List.dropWhile_cons_of_neg (by simp [hb])]
      cases hc : canonical stretch (b :: rest) with
      | nil => rfl
      | cons x more =>
        rw [hc] at hhead
        exact List.dropWhile_cons_of_neg (by simpa [hb] using hhead)

end

/-! ### Quotes -/

theorem closesQuote_canonical (h : Inside stretch isQuotable) (text : List UInt8) :
    closesQuote (canonical stretch text) = closesQuote text := by
  unfold closesQuote
  rw [dropWhile_canonical h]
  exact any_head?_canonical (caseless_char rfl) rfl stretch _

theorem drop_canonical_of_closesQuote (h : closesQuote text = true) :
    (canonical .quoted (text.dropWhile isQuotable)).drop 1 =
      canonical .code ((text.dropWhile isQuotable).drop 1) := by
  unfold closesQuote at h
  cases hrest : text.dropWhile isQuotable with
  | nil => rfl
  | cons b rest =>
    have hquote : (char b == '"') = true := by rwa [hrest] at h
    rw [canonical_of_inline (isLineEnd_of_quote b hquote)]
    show canonical (Stretch.quoted.behind b rest) rest = canonical .code rest
    rw [Stretch.behind, if_pos hquote]

theorem canonical_of_not_closesQuote (h : closesQuote text = false) :
    canonical .remark (text.dropWhile isQuotable) = canonical .code (text.dropWhile isQuotable) := by
  refine canonical_congr_of_lineEnd ?_ .remark
  have hhead := List.head?_dropWhile_not isQuotable text
  unfold closesQuote at h
  cases hrest : text.dropWhile isQuotable with
  | nil => rfl
  | cons b rest =>
    rw [hrest] at h hhead
    have hquote : (char b == '"') = false := h
    simpa [isQuotable, bne, hquote] using hhead

/-! ### Words -/

/-- A word of plain characters at the start of a text. -/
theorem take_canonical (word : List Char) (hplain : ∀ b, folded b ∈ word → isPlain b = true)
    (text : List UInt8) :
    (((canonical .code text).take word.length).map folded = word ↔
      (text.take word.length).map folded = word) ∧
    ((text.take word.length).map folded = word →
      (canonical .code text).drop word.length = canonical .code (text.drop word.length)) := by
  induction word generalizing text with
  | nil => simp
  | cons x word ih =>
    have hmore := ih fun b hb => hplain b (List.mem_cons_of_mem x hb)
    cases text with
    | nil => simp [canonical]
    | cons b rest =>
      cases hb : isPlain b with
      | true =>
        rw [canonical_of_inside inside_plain hb]
        show (folded (lower b) :: _ = _ ↔ folded b :: _ = _) ∧ (folded b :: _ = _ → _)
        rw [folded_lower, List.cons.injEq, List.cons.injEq, (hmore rest).1]
        exact ⟨Iff.rfl, fun h => (hmore rest).2 h.2⟩
      | false =>
        -- neither text begins with a character of the word
        have hne : ∀ {c : UInt8}, isPlain c = false → folded c ≠ x := by
          rintro c hc rfl
          rw [hplain c List.mem_cons_self] at hc
          cases hc
        have hhead := inside_plain.any_head? (b :: rest)
        cases hc : canonical .code (b :: rest) with
        | nil => simp [hne hb]
        | cons c more =>
          rw [hc] at hhead
          have hfirst : isPlain c = false := hhead.trans hb
          simp [hne hb, hne hfirst]

/-! ### Lines -/

theorem dropWhile_inline_canonical (stretch : Stretch) (text : List UInt8) :
    (canonical stretch text).dropWhile (fun b => !isLineEnd b) =
      canonical .code (text.dropWhile fun b => !isLineEnd b) := by
  induction text generalizing stretch with
  | nil => rfl
  | cons b rest ih =>
    cases hb : isLineEnd b with
    | true =>
      rw [List.dropWhile_cons_of_neg (by simp [hb]), canonical_of_lineEnd hb,
        canonical_of_lineEnd hb]
      rfl
    | false =>
      rw [canonical_of_inline hb,
        List.dropWhile_cons_of_pos (by simp [caseless_isLineEnd.spell, hb]),
        List.dropWhile_cons_of_pos (by simp [hb]), ih]

theorem length_takeWhile_inline_canonical (stretch : Stretch) (text : List UInt8) :
    ((canonical stretch text).takeWhile fun b => !isLineEnd b).length =
      (text.takeWhile fun b => !isLineEnd b).length := by
  induction text generalizing stretch with
  | nil => rfl
  | cons b rest ih =>
    cases hb : isLineEnd b with
    | true =>
      rw [List.takeWhile_cons_of_neg (by simp [hb]), canonical_of_lineEnd hb]
      rfl
    | false =>
      rw [canonical_of_inline hb,
        List.takeWhile_cons_of_pos (by simp [caseless_isLineEnd.spell, hb]),
        List.takeWhile_cons_of_pos (by simp [hb]), List.length_cons, List.length_cons, ih]

/-! ### Other spellings -/

/-- What can end a line. -/
def lineEnds : List (List UInt8) :=
  [[0x0a], [0x0d], [0x0d, 0x0a]]

/-- A text with another end in place of each line feed. -/
def relined (ending text : List UInt8) : List UInt8 :=
  text.flatMap fun b => if b = 0x0a then ending else [b]

/-- Two texts with line feeds that differ in the case of letters outside quotes at most. -/
def Recased (s t : List UInt8) : Prop :=
  0x0d ∉ s ∧ 0x0d ∉ t ∧ canonical .code s = canonical .code t

instance (s t : List UInt8) : Decidable (Recased s t) :=
  inferInstanceAs (Decidable (_ ∧ _ ∧ _))

variable {ending : List UInt8} (hending : ending ∈ lineEnds)

theorem relined_of_ne (h : b ≠ 0x0a) (ending rest : List UInt8) :
    relined ending (b :: rest) = b :: relined ending rest := by
  simp [relined, h]

theorem relined_lineFeed (ending rest : List UInt8) :
    relined ending (0x0a :: rest) = ending ++ relined ending rest := by
  simp [relined]

include hending

theorem exists_cons_of_mem_lineEnds : ∃ e more, ending = e :: more ∧ isLineEnd e = true := by
  simp only [lineEnds, List.mem_cons, List.not_mem_nil, or_false] at hending
  rcases hending with rfl | rfl | rfl <;> exact ⟨_, _, rfl, rfl⟩

/-- A carriage return is not followed by a line feed, unless both are the line end. -/
theorem dropLineEnd_relined (text : List UInt8) :
    dropLineEnd (ending ++ relined ending text) = relined ending text := by
  simp only [lineEnds, List.mem_cons, List.not_mem_nil, or_false] at hending
  rcases hending with rfl | rfl | rfl
  · rfl
  · have hhead : ∀ more, relined [0x0d] text ≠ 0x0a :: more := by
      intro more
      cases text with
      | nil => exact (List.cons_ne_nil _ _).symm
      | cons b rest =>
        by_cases hb : b = 0x0a
        · rw [hb, relined_lineFeed]
          simp
        · rw [relined_of_ne hb]
          simp [hb]
    show dropLineEnd (0x0d :: relined [0x0d] text) = _
    rw [dropLineEnd]
    · rfl
    · exact fun more _ => hhead more
  · rfl

theorem closesQuote_relined (text : List UInt8) :
    closesQuote (relined ending text) = closesQuote text := by
  obtain ⟨e, more, hcons, he⟩ := exists_cons_of_mem_lineEnds hending
  have hquotable : isQuotable e = false := by simp [isQuotable, he]
  have hquote : (char e == '"') = false := by
    rcases eq_of_isLineEnd he with rfl | rfl <;> rfl
  unfold closesQuote
  induction text with
  | nil => rfl
  | cons b rest ih =>
    by_cases hb : b = 0x0a
    · rw [hb, relined_lineFeed, hcons, List.cons_append,
        List.dropWhile_cons_of_neg (by simp [hquotable])]
      exact hquote
    · rw [relined_of_ne hb, List.dropWhile_cons, List.dropWhile_cons]
      split
      · exact ih
      · rfl

/-- A text without carriage returns has the same canonical spelling with other line ends. -/
theorem canonical_relined (stretch : Stretch) (hreturn : 0x0d ∉ text) :
    canonical stretch (relined ending text) = canonical stretch text := by
  obtain ⟨e, more, hcons, he⟩ := exists_cons_of_mem_lineEnds hending
  induction text generalizing stretch with
  | nil => rfl
  | cons b rest ih =>
    have hrest : 0x0d ∉ rest := fun h => hreturn (List.mem_cons_of_mem b h)
    by_cases hb : b = 0x0a
    · have hfeed : isLineEnd b = true := by simp [isLineEnd, hb]
      have hdrop : dropLineEnd (b :: rest) = rest := by
        rw [hb]
        rfl
      have hbehind := dropLineEnd_relined hending rest
      rw [canonical_of_lineEnd hfeed, hdrop, hb, relined_lineFeed]
      rw [hcons, List.cons_append] at hbehind ⊢
      rw [canonical_of_lineEnd he, hbehind, ← hcons, ih .code hrest]
    · have hinline : isLineEnd b = false := by
        have hne : b ≠ 0x0d := fun h => hreturn (h ▸ List.mem_cons_self)
        simp [isLineEnd, hb, hne]
      have hsame : stretch.behind b (relined ending rest) = stretch.behind b rest := by
        unfold Stretch.behind
        rw [closesQuote_relined hending]
      rw [relined_of_ne hb, canonical_of_inline hinline, canonical_of_inline hinline, hsame,
        ih _ hrest]

end Byte

end Assembler6502
