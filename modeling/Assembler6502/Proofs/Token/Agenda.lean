/-
What is left to read.

Blank lines and the numbers of lines have no influence on what statements say.
So all that is left to read of a text is a list of lines: for each line that
holds a token, the column of the first token and the line from there on.

* **`Byte.agenda`** — the lines of a text that hold a token;
* **`agenda_append`** — the lines of two texts with a line end between them;
* **`Cursor.agenda`** — the lines that are ahead of a cursor;
* **`Cleared.agenda`**, **`agenda_within`** — behind a line, and on it.

Design notes.  A text that ends with a carriage return and a line feed behind it
share one line end.  That makes no difference, because either of them ends the
line.
-/
import Assembler6502.Proofs.Token.Lines

namespace Assembler6502

/-! ### Blank lines -/

namespace Cursor

/-- Neither the bytes behind blank lines nor their column depend on the number of the line. -/
theorem afterBlankLines_congr (comment : Bool) (bytes : List UInt8) {p q : Position}
    (h : p.column = q.column) :
    (afterBlankLines comment bytes p).1 = (afterBlankLines comment bytes q).1 ∧
      (afterBlankLines comment bytes p).2.column = (afterBlankLines comment bytes q).2.column := by
  fun_induction afterBlankLines comment bytes p generalizing q with
  | case1 => exact ⟨by simp [afterBlankLines], by simpa [afterBlankLines] using h⟩
  | case2 _ _ _ ih =>
    rw [afterBlankLines]
    exact ih rfl
  | case3 comment b rest p hpair hend ih =>
    rw [afterBlankLines.eq_3 _ _ _ _ hpair, if_pos hend]
    exact ih rfl
  | case4 comment b rest p hpair hend hskip ih =>
    rw [afterBlankLines.eq_3 _ _ _ _ hpair, if_neg hend, if_pos hskip]
    exact ih (congrArg (· + 1) h)
  | case5 comment b rest p hpair hend hskip hcomment ih =>
    rw [afterBlankLines.eq_3 _ _ _ _ hpair, if_neg hend, if_neg hskip, if_pos hcomment]
    exact ih (congrArg (· + 1) h)
  | case6 comment b rest p hpair hend hskip hcomment =>
    rw [afterBlankLines.eq_3 _ _ _ _ hpair, if_neg hend, if_neg hskip, if_neg hcomment]
    exact ⟨rfl, h⟩

theorem not_pair_append {b : UInt8} (h : ¬ Byte.isLineEnd b = true) (rest behind : List UInt8) :
    ∀ rest', b = 0x0d → rest ++ 0x0a :: behind = 0x0a :: rest' → False := by
  rintro rest' rfl -
  exact h rfl

/-- A line end behind a text: either the text is blank, or its first token comes first. -/
theorem afterBlankLines_append (comment : Bool) (text behind : List UInt8) (p : Position) :
    ((afterBlankLines comment text p).1 = [] ∧ ∃ q : Position, q.column = 1 ∧
      afterBlankLines comment (text ++ 0x0a :: behind) p = afterBlankLines false behind q) ∨
    ((afterBlankLines comment text p).1 ≠ [] ∧
      afterBlankLines comment (text ++ 0x0a :: behind) p =
        ((afterBlankLines comment text p).1 ++ 0x0a :: behind,
          (afterBlankLines comment text p).2)) := by
  fun_induction afterBlankLines comment text p with
  | case1 comment p =>
    refine .inl ⟨rfl, p.nextLine, rfl, ?_⟩
    simp [afterBlankLines, Byte.isLineEnd]
  | case2 _ rest p ih => simpa [afterBlankLines] using ih
  | case3 comment b rest p hpair hend ih =>
    by_cases hlast : b = 0x0d ∧ rest = []
    · -- the carriage return and the line feed end one line
      obtain ⟨rfl, rfl⟩ := hlast
      refine .inl ⟨by simp [afterBlankLines], p.nextLine, rfl, ?_⟩
      simp [afterBlankLines]
    · have hpair' : ∀ rest', b = 0x0d → rest ++ 0x0a :: behind = 0x0a :: rest' → False := by
        intro rest' hb hrest
        cases rest with
        | nil => exact hlast ⟨hb, rfl⟩
        | cons c rest => exact hpair rest hb (by rw [(List.cons.inj hrest).1])
      rw [List.cons_append, afterBlankLines.eq_3 _ _ _ _ hpair', if_pos hend]
      exact ih
  | case4 comment b rest p hpair hend hskip ih =>
    have hpair' := not_pair_append hend rest behind
    rw [List.cons_append, afterBlankLines.eq_3 _ _ _ _ hpair', if_neg hend, if_pos hskip]
    exact ih
  | case5 comment b rest p hpair hend hskip hcomment ih =>
    have hpair' := not_pair_append hend rest behind
    rw [List.cons_append, afterBlankLines.eq_3 _ _ _ _ hpair', if_neg hend, if_neg hskip,
      if_pos hcomment]
    exact ih
  | case6 comment b rest p hpair hend hskip hcomment =>
    have hpair' := not_pair_append hend rest behind
    refine .inr ⟨List.cons_ne_nil _ _, ?_⟩
    rw [List.cons_append, afterBlankLines.eq_3 _ _ _ _ hpair', if_neg hend, if_neg hskip,
      if_neg hcomment]

end Cursor

/-! ### The lines of a text -/

namespace Byte

/-- The text of a line, up to its end. -/
def lineText (bytes : List UInt8) : List UInt8 :=
  bytes.takeWhile fun b => !isLineEnd b

/-- What stands behind the first line. -/
def behindLine (bytes : List UInt8) : List UInt8 :=
  dropLineEnd (bytes.dropWhile fun b => !isLineEnd b)

/-- What stops a line is a line end. -/
theorem isLineEnd_of_dropWhile {bytes rest : List UInt8} {b : UInt8}
    (h : bytes.dropWhile (fun b => !isLineEnd b) = b :: rest) : isLineEnd b = true := by
  have hhead := List.head?_dropWhile_not (fun b => !isLineEnd b) bytes
  rw [h] at hhead
  simpa using hhead

theorem length_behindLine_lt {bytes : List UInt8} (h : bytes ≠ []) :
    (behindLine bytes).length < bytes.length := by
  unfold behindLine
  cases hline : bytes.dropWhile (fun b => !isLineEnd b) with
  | nil => exact List.length_pos_iff.mpr h
  | cons b rest =>
    have hsees : (Cursor.ofBytes (b :: rest)).sees isLineEnd = true := isLineEnd_of_dropWhile hline
    have hle := (List.dropWhile_suffix (l := bytes) fun b => !isLineEnd b).length_le
    rw [hline] at hle
    exact Nat.lt_of_lt_of_le (Cursor.length_newline_lt hsees) hle

theorem lineText_append (text behind : List UInt8) :
    lineText (text ++ 0x0a :: behind) = lineText text :=
  Frame.takeWhile_append (f := ⟨0, 0, 0x0a :: behind, by simp [isLineEnd]⟩) (by decide) text

/-- A line end behind a text ends its last line, unless it belongs to the end of that line. -/
theorem behindLine_append (text behind : List UInt8) :
    behindLine (text ++ 0x0a :: behind) = behindLine text ++ 0x0a :: behind ∨
      (behindLine (text ++ 0x0a :: behind) = behind ∧ behindLine text = []) := by
  have hdrop : (text ++ 0x0a :: behind).dropWhile (fun b => !isLineEnd b) =
      text.dropWhile (fun b => !isLineEnd b) ++ 0x0a :: behind :=
    Frame.dropWhile_append (f := ⟨0, 0, 0x0a :: behind, by simp [isLineEnd]⟩) (by decide) text
  unfold behindLine
  rw [hdrop]
  cases hline : text.dropWhile (fun b => !isLineEnd b) with
  | nil => exact .inr ⟨rfl, rfl⟩
  | cons b rest =>
    rcases eq_of_isLineEnd (isLineEnd_of_dropWhile hline) with rfl | rfl
    · exact .inl rfl
    · cases rest with
      -- the carriage return that ends the text and the line feed are one line end
      | nil => exact .inr ⟨rfl, rfl⟩
      | cons c rest =>
        refine .inl ?_
        by_cases hc : c = 0x0a
        · rw [hc]
          rfl
        · simp [dropLineEnd, isLineEnd, hc]

/-- The lines that hold a token, each from its first token on, with the column of the token. -/
def agenda (bytes : List UInt8) : List (Nat × List UInt8) :=
  let ahead := Cursor.afterBlankLines false bytes .start
  if _h : ahead.1 = [] then []
  else (ahead.2.column, lineText ahead.1) :: agenda (behindLine ahead.1)
termination_by bytes.length
decreasing_by
  exact Nat.lt_of_lt_of_le (length_behindLine_lt _h)
    (Cursor.afterBlankLines_suffix false bytes .start).length_le

/-- The lines from blank ones on. -/
theorem agenda_eq {p : Position} (bytes : List UInt8) (hp : p.column = 1) :
    agenda bytes =
      if (Cursor.afterBlankLines false bytes p).1 = [] then []
      else ((Cursor.afterBlankLines false bytes p).2.column,
          lineText (Cursor.afterBlankLines false bytes p).1) ::
        agenda (behindLine (Cursor.afterBlankLines false bytes p).1) := by
  obtain ⟨hrest, hcolumn⟩ := Cursor.afterBlankLines_congr false bytes (p := p) (q := .start) hp
  rw [agenda, hrest, hcolumn]
  rfl

theorem agenda_nil : agenda [] = [] :=
  agenda_eq [] (p := .start) rfl

/-- The lines of two texts with a line end between them. -/
theorem agenda_append (text behind : List UInt8) :
    agenda (text ++ 0x0a :: behind) = agenda text ++ agenda behind := by
  induction hn : text.length using Nat.strongRecOn generalizing text with
  | ind n ih =>
    rw [agenda_eq text (p := .start) rfl, agenda_eq (text ++ 0x0a :: behind) (p := .start) rfl]
    rcases Cursor.afterBlankLines_append false text behind .start with
      ⟨hblank, q, hq, heq⟩ | ⟨hsolid, heq⟩
    -- the text holds no token
    · rw [heq, if_pos hblank, List.nil_append, agenda_eq behind hq]
    · have hle := (Cursor.afterBlankLines_suffix false text .start).length_le
      have hlt := length_behindLine_lt hsolid
      rw [heq, if_neg (by simp), if_neg hsolid, List.cons_append, lineText_append]
      congr 1
      rcases behindLine_append (Cursor.afterBlankLines false text .start).1 behind with
        hbehind | ⟨hbehind, hnil⟩
      · rw [hbehind]
        exact ih _ (by omega) _ rfl
      -- the first line of the text is its last
      · rw [hbehind, hnil, agenda_nil, List.nil_append]

end Byte

/-! ### The lines ahead of a cursor -/

namespace Cursor

variable {c d : Cursor} {f : Frame}

/-- The lines that are ahead, the first of them from the next token on. -/
def agenda (c : Cursor) : List (Nat × List UInt8) :=
  if c.atToken.rest = [] then []
  else (c.atToken.position.column, Byte.lineText c.atToken.rest) ::
    Byte.agenda (Byte.behindLine c.atToken.rest)

theorem agenda_eq_nil_iff : c.agenda = [] ↔ c.atToken.rest = [] := by
  unfold agenda
  split <;> simp_all

/-- At the start of a line the lines ahead are those of the bytes ahead. -/
theorem agenda_of_fresh (hfresh : c.fresh = true) (hcolumn : c.position.column = 1) :
    c.agenda = Byte.agenda c.rest := by
  have htoken : c.toToken = c.skipBlankLines := by rw [toToken, if_pos hfresh]
  rw [Byte.agenda_eq c.rest hcolumn]
  show (if c.toToken.rest = [] then [] else
    (c.toToken.position.column, Byte.lineText c.toToken.rest) ::
      Byte.agenda (Byte.behindLine c.toToken.rest)) = _
  rw [htoken]
  rfl

/-- On a line the next token is the first of what is ahead. -/
theorem agenda_within (hfresh : d.fresh = false) (hline : Byte.OneLine d.rest)
    (hsolid : d.skipBlanks.rest ≠ []) :
    (d.within f).agenda = (d.skipBlanks.position.column, d.skipBlanks.rest) ::
      Byte.agenda (Byte.dropLineEnd f.behind) := by
  have hline' := hline.of_suffix d.skipBlanks_suffix
  have htext : Byte.lineText (d.skipBlanks.within f).rest = d.skipBlanks.rest :=
    Frame.takeWhile_line hline'
  have hbehind : Byte.behindLine (d.skipBlanks.within f).rest = Byte.dropLineEnd f.behind :=
    congrArg Byte.dropLineEnd (Frame.dropWhile_line hline')
  unfold agenda
  rw [atToken_within hfresh, htext, hbehind, if_neg (by simp [within, hsolid])]
  rfl

end Cursor

/-- Behind a line the lines ahead are those behind it. -/
theorem Frame.Cleared.agenda {f : Frame} {c : Cursor} (h : f.Cleared c) :
    c.agenda = Byte.agenda (Byte.dropLineEnd f.behind) := by
  cases h with
  | passed more cursor =>
    rw [cursor]
    exact Cursor.agenda_of_fresh rfl rfl
  | ended last rest =>
    rw [Cursor.agenda_eq_nil_iff.mpr rest, last]
    exact Byte.agenda_nil.symm

end Assembler6502
