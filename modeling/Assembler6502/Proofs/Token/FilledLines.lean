/-
Lines that hold a token.

Blank lines are passed over without a trace.  So between two lines all that is
ahead are the lines that hold a token, each with its number, and the first of
them is read as if it were a text of its own.

* **`Byte.filled`** — the lines of a text that hold a token, with their numbers;
* **`Byte.lines_eq`** — the first line of a text and the lines behind it;
* **`Cursor.afterBlankLines_framed`** — blanks at the start of a line in its
  frame;
* **`Cursor.Between`**, **`Cursor.ahead`** — a cursor between two lines, and the
  lines that are ahead of it;
* **`Cursor.ahead_cases`** — the first of these lines in its text and alone.

Design notes.  Numbers go with the lines of a list, not with the bytes, so they
are in order by the way they are given out.  A cursor at the end of the last
line, behind which there is no line end, has nothing ahead of it.
-/
import Assembler6502.Proofs.Token.Agenda
import Assembler6502.Proofs.Token.Positions
import Assembler6502.Proofs.Token.Sequence

namespace Assembler6502

/-! ### The lines of a text -/

namespace Byte

/-- Whether there is a token on a line, which may be one with an error in it. -/
def holdsToken (text : List UInt8) : Bool :=
  (Cursor.ofBytes text).tokenLine?.isSome

/-- The lines that hold a token, with their numbers.  The first line has the number `m`. -/
def filled (bytes : List UInt8) (m : Nat) : List (List UInt8 × Nat) :=
  ((lines bytes).zipIdx m).filter fun line => holdsToken line.1

/-- The first line goes up to a line end, and behind it the other lines follow. -/
theorem lines_eq (bytes : List UInt8) :
    lines bytes = lineText bytes ::
      if bytes.dropWhile (fun b => !isLineEnd b) = [] then [] else lines (behindLine bytes) := by
  fun_induction lines bytes with
  | case1 => rfl
  | case2 rest => simp [lineText, behindLine, dropLineEnd, isLineEnd]
  | case3 b rest hpair hend =>
    have hdrop : dropLineEnd (b :: rest) = rest := by
      rw [dropLineEnd.eq_2 _ _ hpair, if_pos hend]
    simp [lineText, behindLine, hend, hdrop]
  | case4 b rest hpair hend hnil ih =>
    rw [hnil] at ih
    cases ih
  | case5 b rest hpair hend line others hlines ih =>
    obtain ⟨rfl, rfl⟩ := List.cons.inj (hlines.symm.trans ih)
    simp [lineText, behindLine, hend]

variable {bytes text : List UInt8} {m n : Nat}

theorem holdsToken_nil : holdsToken [] = false := by
  decide +kernel

/-- A line that holds a token is there under its number. -/
theorem mem_filled : (text, n) ∈ filled bytes 1 ↔ line bytes n = text ∧ holdsToken text = true := by
  unfold filled line
  rw [List.mem_filter, List.mk_mem_zipIdx_iff_le_and_getElem?_sub]
  constructor
  · rintro ⟨⟨hn, htext⟩, hholds⟩
    rw [if_neg (by omega), htext]
    exact ⟨rfl, hholds⟩
  · rintro ⟨hline, hholds⟩
    -- where there is no line, the empty one is given, which holds no token
    have hsolid : text ≠ [] := by
      rintro rfl
      rw [holdsToken_nil] at hholds
      cases hholds
    split at hline
    · exact absurd hline.symm hsolid
    · next hn =>
      refine ⟨⟨by omega, ?_⟩, hholds⟩
      cases htext : (lines bytes)[n - 1]? with
      | none =>
        rw [htext] at hline
        exact absurd hline.symm hsolid
      | some other =>
        rw [htext] at hline
        exact congrArg some hline

theorem pairwise_filled (bytes : List UInt8) (m : Nat) :
    ((filled bytes m).map Prod.snd).Pairwise (· < ·) := by
  have hsub : ((filled bytes m).map Prod.snd).Sublist (((lines bytes).zipIdx m).map Prod.snd) :=
    List.filter_sublist.map _
  rw [List.zipIdx_map_snd] at hsub
  exact List.Pairwise.sublist hsub List.pairwise_lt_range'

end Byte

/-- The lines behind a line that hold a token. -/
def Frame.later (f : Frame) : List (List UInt8 × Nat) :=
  if f.behind = [] then [] else Byte.filled (Byte.dropLineEnd f.behind) (f.number + 1)

namespace Cursor

variable {c d : Cursor} {f : Frame}

/-- The line of the cursor comes first if it holds a token. -/
theorem filled_eq (c : Cursor) :
    Byte.filled c.rest c.position.line =
      (if Byte.holdsToken c.bare.rest then [(c.bare.rest, c.position.line)] else []) ++
        c.frame.later := by
  have hbehind : (if c.rest.dropWhile (fun b => !Byte.isLineEnd b) = [] then []
      else Byte.lines (Byte.behindLine c.rest)).zipIdx (c.position.line + 1) =
        if c.frame.behind = [] then []
        else (Byte.lines (Byte.dropLineEnd c.frame.behind)).zipIdx (c.frame.number + 1) := by
    unfold frame
    dsimp only
    split <;> rfl
  unfold Byte.filled Frame.later
  rw [Byte.lines_eq, List.zipIdx_cons, hbehind, List.filter_cons]
  have hbare : c.bare.rest = Byte.lineText c.rest := rfl
  rw [hbare]
  split <;> split <;> rfl

/-! ### Blanks at the start of a line -/

/-- Blanks before the first token of a line are passed over in its frame as they are without it.
If the line holds none, they go on behind it. -/
theorem afterBlankLines_framed {text : List UInt8} (hline : Byte.OneLine text) (comment : Bool)
    (f : Frame) (p : Position) :
    (afterBlankLines comment text p).2.line = p.line ∧
      afterBlankLines comment (text ++ f.behind) p =
        if (afterBlankLines comment text p).1 = [] ∧ f.behind ≠ [] then
          afterBlankLines false (Byte.dropLineEnd f.behind) ⟨p.line + 1, 1⟩
        else ((afterBlankLines comment text p).1 ++ f.behind, (afterBlankLines comment text p).2) := by
  induction text generalizing comment p with
  | nil =>
    refine ⟨by simp [afterBlankLines], ?_⟩
    cases hbehind : f.behind with
    | nil => simp [afterBlankLines]
    | cons b rest =>
      have hend : Byte.isLineEnd b = true := f.closed b (by rw [hbehind]; rfl)
      rw [if_pos ⟨by simp [afterBlankLines], List.cons_ne_nil _ _⟩, List.nil_append]
      -- a carriage return and a line feed behind it are one line end
      by_cases hpair : ∃ rest', b = 0x0d ∧ rest = 0x0a :: rest'
      · obtain ⟨rest', rfl, rfl⟩ := hpair
        rw [afterBlankLines, Byte.dropLineEnd]
        rfl
      · have hsingle : ∀ rest', b = 0x0d → rest = 0x0a :: rest' → False :=
          fun rest' hb hrest => hpair ⟨rest', hb, hrest⟩
        rw [afterBlankLines.eq_3 _ _ _ _ hsingle, if_pos hend, Byte.dropLineEnd.eq_2 _ _ hsingle,
          if_pos hend]
        rfl
  | cons b rest ih =>
    have hb : ¬ Byte.isLineEnd b = true := by
      rw [hline b List.mem_cons_self]
      exact Bool.false_ne_true
    have hsingle : ∀ {behind : List UInt8}, ∀ rest', b = 0x0d → behind = 0x0a :: rest' → False := by
      rintro _ rest' rfl -
      exact hb rfl
    have hrest : Byte.OneLine rest := hline.of_suffix (List.suffix_cons b rest)
    rw [List.cons_append, afterBlankLines.eq_3 _ _ _ _ hsingle, afterBlankLines.eq_3 _ _ _ _ hsingle,
      if_neg hb, if_neg hb]
    split
    · exact ih hrest comment (p.right 1)
    · split
      · exact ih hrest true (p.right 1)
      · rw [if_neg (by simp)]
        exact ⟨rfl, rfl⟩

/-! ### Between two lines -/

/-- A line holds a token if something is left behind its blanks. -/
theorem holdsToken_iff {text : List UInt8} :
    Byte.holdsToken text = true ↔ (ofBytes text).atToken.rest ≠ [] := by
  constructor
  · intro h hrest
    rw [Byte.holdsToken, tokenLine?, next_of_ended hrest] at h
    cases h
  · intro hrest
    have hopens : (ofBytes text).Opens (ofBytes text).atToken.bare _ :=
      opens_of_fit (fit_of_fresh rfl) hrest rfl rfl rfl
    rw [Byte.holdsToken, tokenLine?_of_opens hopens]
    rfl

/-- The cursor is at the start of a line, or it is on the last line and nothing is left there. -/
def Between (c : Cursor) : Prop :=
  (c.fresh = true ∧ c.position.column = 1) ∨ (c.fresh = false ∧ c.atToken.rest = [])

/-- The lines ahead of a cursor between two lines that hold a token. -/
def ahead (c : Cursor) : List (List UInt8 × Nat) :=
  if c.fresh then Byte.filled c.rest c.position.line else []

theorem between_ofBytes (bytes : List UInt8) : (ofBytes bytes).Between :=
  .inl ⟨rfl, rfl⟩

theorem between_beyond (f : Frame) (hfresh : c.fresh = false) (hrest : c.rest = []) :
    (f.beyond c).Between := by
  unfold Frame.beyond
  split
  · next hbehind =>
    refine .inr ⟨hfresh, atToken_rest_of_nil ?_⟩
    rw [within, hrest, hbehind]
    rfl
  · exact .inl ⟨rfl, rfl⟩

theorem ahead_beyond (f : Frame) (hfresh : c.fresh = false) : (f.beyond c).ahead = f.later := by
  unfold Frame.beyond Frame.later
  split
  · exact if_neg (by simp [within, hfresh])
  · exact if_pos rfl

/-- A cursor at the start of the next line. -/
def onNext (c : Cursor) : Cursor :=
  { c with rest := Byte.dropLineEnd c.frame.behind, position := ⟨c.position.line + 1, 1⟩ }

theorem length_onNext_lt (hmore : c.frame.behind ≠ []) : c.onNext.rest.length < c.rest.length := by
  refine Byte.length_behindLine_lt fun hnil => hmore ?_
  show c.rest.dropWhile _ = []
  rw [hnil]
  rfl

/-- At the start of a line the next token is looked for in the text of the line and behind it. -/
theorem toToken_framed (hfresh : c.fresh = true) :
    c.toToken =
      { c with
        rest := (afterBlankLines false (c.bare.rest ++ c.frame.behind) c.position).1
        position := (afterBlankLines false (c.bare.rest ++ c.frame.behind) c.position).2 } := by
  have hrest : c.bare.rest ++ c.frame.behind = c.rest := List.takeWhile_append_dropWhile
  rw [toToken, if_pos hfresh, hrest]
  rfl

section

variable (hfresh : c.fresh = true) (hcolumn : c.position.column = 1)

include hcolumn

/-- The number of a line has no influence on whether it holds a token. -/
theorem holdsToken_bare_iff : Byte.holdsToken c.bare.rest = true ↔
    (afterBlankLines false c.bare.rest c.position).1 ≠ [] := by
  rw [holdsToken_iff, (afterBlankLines_congr false c.bare.rest (q := .start) hcolumn).1]
  rfl

theorem afterBlankLines_of_blank (hblank : Byte.holdsToken c.bare.rest = false) :
    (afterBlankLines false c.bare.rest c.position).1 = [] := by
  refine Decidable.not_not.mp fun hsolid => ?_
  rw [(holdsToken_bare_iff hcolumn).mpr hsolid] at hblank
  cases hblank

include hfresh

theorem atToken_of_last (hblank : Byte.holdsToken c.bare.rest = false)
    (hlast : c.frame.behind = []) : c.atToken.rest = [] := by
  show c.toToken.rest = []
  rw [toToken_framed hfresh, hlast, List.append_nil]
  exact afterBlankLines_of_blank hcolumn hblank

/-- A line without a token is passed over. -/
theorem toToken_of_blank (hblank : Byte.holdsToken c.bare.rest = false)
    (hmore : c.frame.behind ≠ []) : c.toToken = c.onNext.toToken := by
  have hafter := (afterBlankLines_framed c.oneLine_bare false c.frame c.position).2
  rw [if_pos ⟨afterBlankLines_of_blank hcolumn hblank, hmore⟩] at hafter
  rw [toToken_framed hfresh, hafter, toToken, if_pos (show c.onNext.fresh = true from hfresh)]
  rfl

/-- The first token of a line is the same in its text and alone. -/
theorem opens_of_holdsToken (h : Byte.holdsToken c.bare.rest = true) :
    ∃ d f g, c.Opens d f ∧ (ofBytes c.bare.rest).Opens d g ∧
      c.ahead = (c.bare.rest, f.number) :: f.later := by
  have hsolid := (holdsToken_bare_iff hcolumn).mp h
  obtain ⟨hnumber, hafter⟩ := afterBlankLines_framed c.oneLine_bare false c.frame c.position
  rw [if_neg fun hnot => hsolid hnot.1] at hafter
  have htoken : c.toToken =
      { c with
        rest := (afterBlankLines false c.bare.rest c.position).1 ++ c.frame.behind
        position := (afterBlankLines false c.bare.rest c.position).2 } := by
    rw [toToken_framed hfresh, hafter]
  obtain ⟨hrest, hcol⟩ := afterBlankLines_congr false c.bare.rest (q := .start) hcolumn
  have hline : Byte.OneLine (afterBlankLines false c.bare.rest c.position).1 :=
    c.oneLine_bare.of_suffix (afterBlankLines_suffix _ _ _)
  have hframe : c.atToken.frame.number = c.frame.number ∧
      c.atToken.frame.behind = c.frame.behind := by
    show c.toToken.position.line = _ ∧ c.toToken.rest.dropWhile _ = _
    rw [htoken]
    exact ⟨hnumber, Frame.dropWhile_line hline⟩
  -- the text that both read is what the line alone has left at its first token
  refine ⟨(ofBytes c.bare.rest).atToken.bare, c.atToken.frame, (ofBytes c.bare.rest).atToken.frame,
    opens_of_fit (fit_of_fresh hfresh) ?_ rfl ?_ ?_,
    opens_of_fit (fit_of_fresh rfl) (holdsToken_iff.mp h) rfl rfl rfl, ?_⟩
  · show c.toToken.rest ≠ []
    rw [htoken]
    exact List.append_ne_nil_of_left_ne_nil hsolid _
  · show _ = c.toToken.rest.takeWhile _
    rw [htoken]
    dsimp only
    rw [Frame.takeWhile_append inline_not_isLineEnd, hrest]
    rfl
  · show _ = c.toToken.position.column
    rw [htoken]
    exact hcol.symm
  · rw [ahead, if_pos hfresh, filled_eq, if_pos h, Frame.later, Frame.later, hframe.1, hframe.2]
    rfl

end

theorem next_congr (h : c.toToken = d.toToken) : c.next = d.next := by
  unfold next
  rw [h]

/-- Between two lines the input ends, or a line with a token is ahead.  The first token of that line
is the same in the text and in the line alone, and the other lines ahead are those behind it. -/
theorem ahead_cases (h : c.Between) :
    (c.ahead = [] ∧ c.atToken.rest = []) ∨
      ∃ d f g text, c.Opens d f ∧ (ofBytes text).Opens d g ∧
        c.ahead = (text, f.number) :: f.later := by
  rcases h with ⟨hfresh, hcolumn⟩ | ⟨hfresh, hrest⟩
  · -- blank lines are passed over one by one
    induction hn : c.rest.length using Nat.strongRecOn generalizing c with
    | ind n ih =>
      cases hholds : Byte.holdsToken c.bare.rest with
      | true =>
        obtain ⟨d, f, g, hf, hg, hahead⟩ := opens_of_holdsToken hfresh hcolumn hholds
        exact .inr ⟨d, f, g, c.bare.rest, hf, hg, hahead⟩
      | false =>
        have hlater : c.ahead = c.frame.later := by
          rw [ahead, if_pos hfresh, filled_eq, hholds]
          rfl
        by_cases hbehind : c.frame.behind = []
        · refine .inl ⟨hlater.trans (if_pos hbehind), ?_⟩
          exact atToken_of_last hfresh hcolumn hholds hbehind
        · have htoken := toToken_of_blank hfresh hcolumn hholds hbehind
          have hahead : c.ahead = c.onNext.ahead :=
            hlater.trans ((if_neg hbehind).trans (if_pos hfresh).symm)
          have hlt := length_onNext_lt hbehind
          rcases ih _ (hn ▸ hlt) (c := c.onNext) hfresh rfl rfl with
            ⟨hnone, hended⟩ | ⟨d, f, g, text, hf, hg, hfirst⟩
          · refine .inl ⟨hahead.trans hnone, ?_⟩
            show c.toToken.rest = []
            rw [htoken]
            exact hended
          · refine .inr ⟨d, f, g, text, ?_, hg, hahead.trans hfirst⟩
            exact ⟨hf.fresh, hf.line, hf.solid, (next_congr htoken).trans hf.next⟩
  · exact .inl ⟨if_neg (by simp [hfresh]), hrest⟩

end Cursor

end Assembler6502
