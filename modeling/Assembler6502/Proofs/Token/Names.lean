/-
Names as they are written.

A name is a letter or an underscore with letters, digits and underscores behind
it, unless it is a reserved word.  What is read as a name is written like that,
and what is written like that is read as a name.

* **`Byte.IsName`** — bytes that are written as a name;
* **`Byte.IsNameText`** — the texts that names have;
* **`Byte.IsName.foldedText`** — a name in lower case is a name;
* **`Cursor.scan_name`** — a name is scanned as such, with the colon that may
  follow it;
* **`Cursor.isName_of_scan`** — nothing else is.
-/
import Assembler6502.Proofs.Statement.LabelColumns
import Assembler6502.Proofs.Token.Numbers

namespace Assembler6502

namespace Byte

/-- Bytes that are written as a name: letters, digits and underscores, of which the first is no
digit, and which are no reserved word, whatever the case of the letters. -/
structure IsName (word : List UInt8) : Prop where
  nonempty : word ≠ []
  first : ∀ b ∈ word.head?, (char b).isDigit = false
  letters : ∀ b ∈ word, isWord b = true
  free : (Lexeme.keyword? (foldedText word) : Option (Lexeme Spelling)) = none

theorem isDigit_char_lower : ∀ b, (char (lower b)).isDigit = (char b).isDigit :=
  forall_of_forall_lt (by decide +kernel)

theorem ofChars_foldedText (bytes : List UInt8) :
    ofChars (foldedText bytes).toList = bytes.map lower := by
  rw [foldedText, String.toList_ofList, ofChars, List.map_map]
  rfl

/-- A name in lower case is a name. -/
theorem IsName.lower {word : List UInt8} (h : IsName word) : IsName (word.map lower) where
  nonempty := by simpa using h.nonempty
  first b hb := by
    rw [List.head?_map] at hb
    obtain ⟨b, hfirst, rfl⟩ := Option.map_eq_some_iff.mp hb
    rw [isDigit_char_lower]
    exact h.first b hfirst
  letters b hb := by
    obtain ⟨b, hmem, rfl⟩ := List.mem_map.mp hb
    rw [inside_word.caseless]
    exact h.letters b hmem
  free := by rw [foldedText_map_lower, h.free]

/-- The text of a name: a name as it is written in lower case. -/
structure IsNameText (name : String) : Prop where
  isName : IsName (ofChars name.toList)
  foldedText_eq : foldedText (ofChars name.toList) = name

/-- What is read from a name as it is written is the text of a name. -/
theorem IsName.foldedText {word : List UInt8} (h : IsName word) :
    IsNameText (foldedText word) where
  isName := by
    rw [ofChars_foldedText]
    exact h.lower
  foldedText_eq := by rw [ofChars_foldedText, foldedText_map_lower]

/-- The text of a name has no dot, and no characters but those of ASCII. -/
theorem IsNameText.of_mem {name : String} (h : IsNameText name) {c : Char} (hc : c ∈ name.toList) :
    c ≠ '.' ∧ c.toNat < 0x80 := by
  have hall : ∀ b, isWord b = true → folded b ≠ '.' ∧ (folded b).toNat < 0x80 :=
    forall_of_forall_lt (by decide +kernel)
  rw [← h.foldedText_eq, Byte.foldedText, String.toList_ofList] at hc
  obtain ⟨b, hb, rfl⟩ := List.mem_map.mp hc
  exact hall b (h.isName.letters b hb)

/-- The bytes with which a name begins are those with which a word begins, the dot apart. -/
theorem startsWord_iff : ∀ b, Point.startsWord (folded b) = true ∧ (char b == '.') = false ↔
    isWord b = true ∧ (char b).isDigit = false :=
  forall_of_forall_lt (by decide +kernel)

end Byte

namespace Cursor

variable {c d : Cursor} {word behind : List UInt8} {w : Spelling}

/-! ### Reading a name -/

/-- A name is scanned with the colon that may follow it. -/
theorem scan_name (h : c.rest = word ++ behind) (hname : Byte.IsName word)
    (hends : ∀ b ∈ behind.head?, Byte.isWord b = false) :
    c.scan = if behind.head?.any (fun b => Byte.char b == ':') then
      (.ok (.name ⟨Byte.foldedText word, true⟩), c.skip (word.length + 1))
    else (.ok (.name ⟨Byte.foldedText word, false⟩), c.skip word.length) := by
  obtain ⟨first, rest, rfl⟩ := List.exists_cons_of_ne_nil hname.nonempty
  have hrest : c.rest = first :: (rest ++ behind) := h
  have hskip : (c.skip 1).rest = rest ++ behind := by
    rw [skip, hrest]
    rfl
  have hword : ∀ b ∈ rest, Byte.isWord b = true :=
    fun b hb => hname.letters b (List.mem_cons_of_mem first hb)
  obtain ⟨hstarts, hdot⟩ := (Byte.startsWord_iff first).mpr
    ⟨hname.letters first List.mem_cons_self, hname.first first rfl⟩
  have hread := skipWhile_run hskip hword hends
  have hbehind : (c.skip (1 + rest.length)).rest = behind := by
    rw [← skip_skip, skip, hskip, List.drop_left]
  have htext : c.rest.take 1 ++ (c.rest.drop 1).takeWhile Byte.isWord = first :: rest := by
    rw [hrest, List.take_succ_cons, List.take_zero, List.drop_succ_cons, List.drop_zero,
      (Byte.span_run hword hends).1]
    rfl
  have hsees : (c.sees fun b => Byte.char b == '.') = false := by
    rw [sees, hrest]
    exact hdot
  have hcolon : ((c.skip (1 + rest.length)).sees fun b => Byte.char b == ':') =
      behind.head?.any fun b => Byte.char b == ':' := by
    rw [sees, hbehind]
  rw [Point.scan_eq_word hrest hstarts, Cursor.word, htext, hname.free, hsees,
    if_neg Bool.false_ne_true, hread, skip_skip, hcolon, skip_skip, List.length_cons,
    Nat.add_comm rest.length 1]

/-- A name is read where it stands. -/
theorem toToken_name (h : c.rest = word ++ behind) (hname : Byte.IsName word) : c.toToken = c := by
  obtain ⟨first, rest, rfl⟩ := List.exists_cons_of_ne_nil hname.nonempty
  exact toToken_solid (by rw [h, List.cons_append])
    (Byte.isSolid_of_isWord first (hname.letters first List.mem_cons_self))

/-- A name is the next token where it stands. -/
theorem next_name (h : c.toToken.rest = word ++ behind) (hname : Byte.IsName word)
    (hends : ∀ b ∈ behind.head?, Byte.isWord b = false) :
    c.next = if behind.head?.any (fun b => Byte.char b == ':') then
      (.ok ⟨.name ⟨Byte.foldedText word, true⟩, c.toToken.position⟩,
        c.toToken.begin.skip (word.length + 1))
    else
      (.ok ⟨.name ⟨Byte.foldedText word, false⟩, c.toToken.position⟩,
        c.toToken.begin.skip word.length) := by
  have hsees : c.toToken.sees Byte.isLineEnd = false := by
    obtain ⟨first, rest, rfl⟩ := List.exists_cons_of_ne_nil hname.nonempty
    have hsolid := Byte.isSolid_of_isWord first (hname.letters first List.mem_cons_self)
    simp only [Byte.isSolid, Bool.and_eq_true, Bool.not_eq_true'] at hsolid
    rw [sees, h]
    exact hsolid.1.2
  have hscan : c.toToken.begin.scan = _ := scan_name (c := c.toToken.begin) h hname hends
  rw [next_eq_scan hsees, hscan]
  split <;> rfl

/-! ### What is read as a name -/

/-- A name is scanned only from where a word begins. -/
theorem startsWord_of_scan {b : UInt8} {rest : List UInt8} (hrest : c.rest = b :: rest)
    (h : c.scan.1 = .ok (.name w)) : Point.startsWord (Byte.folded b) = true := by
  unfold scan at h
  rw [hrest] at h
  dsimp only at h
  split at h
  · next hsign =>
    cases h
    exact absurd hsign (Lexeme.sign?_ne_name _ _)
  · exact absurd h (markedNumber_ne_name _)
  · next hsign hmark =>
    split at h
    · exact absurd h quoted_ne_name
    next hquote =>
    split at h
    · exact absurd h anonymous_ne_name
    next hat =>
    split at h
    · exact absurd h hash_ne_name
    next hhash =>
    split at h
    · exact absurd h (angle_ne_name _ _ _)
    next hless =>
    split at h
    · exact absurd h (angle_ne_name _ _ _)
    next hgreater =>
    split at h
    · exact absurd h (number_ne_name _)
    next hdigit =>
    split at h
    · next hstarts =>
      simpa [Point.startsWord, hsign, hmark, hquote, hat, hhash, hless, hgreater, hdigit]
        using hstarts
    · cases h

/-- A word that is a name is not reserved and begins with no dot. -/
theorem free_of_word (h : c.word.1 = .ok (.name w)) :
    Byte.foldedText (c.rest.take 1 ++ (c.rest.drop 1).takeWhile Byte.isWord) = w.text ∧
      (Lexeme.keyword? w.text : Option (Lexeme Spelling)) = none ∧
      (c.sees fun b => Byte.char b == '.') = false := by
  unfold word at h
  dsimp only at h
  split at h
  · next hkeyword =>
    cases h
    exact absurd hkeyword (Lexeme.keyword?_ne_name _ _)
  · next hkeyword =>
    split at h
    · cases h
    · next hdot =>
      split at h <;> cases h <;> exact ⟨rfl, hkeyword, Bool.eq_false_iff.mpr hdot⟩

/-- What is scanned as a name is written as one. -/
theorem isName_of_scan (h : c.scan.1 = .ok (.name w)) :
    ∃ word behind, c.rest = word ++ behind ∧ Byte.IsName word ∧ Byte.foldedText word = w.text := by
  cases hrest : c.rest with
  | nil =>
    rw [scan_of_nil hrest] at h
    cases h
  | cons first rest =>
    have hstarts := startsWord_of_scan hrest h
    rw [Point.scan_eq_word hrest hstarts] at h
    obtain ⟨htext, hfree, hdot⟩ := free_of_word h
    rw [sees, hrest] at hdot
    rw [hrest] at htext
    obtain ⟨hletter, hdigit⟩ := (Byte.startsWord_iff first).mp ⟨hstarts, hdot⟩
    refine ⟨first :: rest.takeWhile Byte.isWord, rest.dropWhile Byte.isWord, ?_, ?_, htext⟩
    · rw [List.cons_append, List.takeWhile_append_dropWhile]
    · refine ⟨by simp, ?_, ?_, htext ▸ hfree⟩
      · rintro _ ⟨⟩
        exact hdigit
      · intro b hb
        rcases List.mem_cons.mp hb with rfl | hb
        · exact hletter
        · exact List.all_eq_true.mp List.all_takeWhile b hb

/-- What is read as a name is written as one. -/
theorem isName_of_next {p : Position} (h : c.next = (.ok ⟨.name w, p⟩, d)) :
    ∃ word behind, c.toToken.rest = word ++ behind ∧ Byte.IsName word ∧
      Byte.foldedText word = w.text :=
  isName_of_scan (c := c.toToken.begin) (scan_of_next h)

end Cursor

end Assembler6502
