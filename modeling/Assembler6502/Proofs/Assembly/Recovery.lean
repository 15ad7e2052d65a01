/-
Errors lose no line.

A statement is read from one line, and after an error reading goes on at the
start of the next one.  So a pass over a text without inclusions tries a
statement at the first token of every line that has one, whatever went wrong
before, and what goes wrong is noted line by line.

* **`Statement.parse_outcome`** — what reading a statement can do to the
  cursor;
* **`Orderly.step`** — what a step keeps;
* **`exists_reaches_passed`** — a pass that ends has come to the line behind;
* **`run_loses_no_line`** — the statements of a pass and the lines of its text.

Design notes.  `Cursor.nth` reads the text token by token and knows no
statements.  Both ways of reading come to the same cursors at the starts of
lines, because a statement that ends, ends with its line, and recovery leads to
the same place.
-/
import Assembler6502.Proofs.Assembly.Twins
import Assembler6502.Proofs.Assembly.Visits
import Assembler6502.Proofs.Statement.Framing
import Assembler6502.Proofs.Token.Sequence

namespace Assembler6502

namespace Statement

variable {context : Context} {r : Reading}

/-- What reading a statement can come to, on the line of its first token. -/
inductive Outcome (f : Frame) : EStateM.Result Diagnostic Reading Statement → Prop where
  | read {statement : Statement} {r : Reading} (ending : statement ≠ .endOfInput)
      (stays : f.Stays r.cursor) (leads : statement ≠ .undefined → f.Leads r.cursor) :
      Outcome f (.ok statement r)
  | failed {d : Diagnostic} {r : Reading} (line : d.location.line = f.number)
      (stays : f.Stays r.cursor) : Outcome f (.error d r)

theorem parse_outcome (hfit : r.cursor.Fit) (htoken : r.cursor.atToken.rest ≠ []) :
    Outcome r.cursor.atToken.frame (parse context r) := by
  -- one reading, taken twice
  have hopens := Cursor.opens_of_fit (d := r.cursor.atToken.bare) hfit htoken rfl rfl rfl
  have hopening : Opening r.cursor.atToken.frame r.cursor.atToken.frame
      r.cursor.atToken.bare.rest.length r r := ⟨rfl, _, Nat.le_refl _, hopens, hopens⟩
  have hmatched : Matched _ _ _ (parse context r) (parse context r) := parse_inStep hopening
  generalize parse context r = x at hmatched
  cases hmatched with
  | ok result =>
    obtain ⟨hending, -, hbehind⟩ := result
    rcases hbehind with ⟨rfl, honLine⟩ | hahead | hended
    · exact .read hending honLine.halted.left fun h => absurd rfl h
    · refine .read hending hahead.halted.left fun _ => ?_
      obtain ⟨-, d, hfresh, hline, -, hsolid, hr, -⟩ := hahead
      exact .onLine hfresh hline hsolid hr
    · exact .read hending hended.halted.left fun _ => .cleared hended.2.1.cleared
  | error cause left right place => exact .failed left place.left

end Statement

/-! ### Lines and steps -/

/-- The bytes behind the line of the next token. -/
def Cursor.nextLine (c : Cursor) : List UInt8 :=
  Byte.dropLineEnd c.atToken.frame.behind

theorem Cursor.afterBlankLines_line (comment : Bool) (bytes : List UInt8) (p : Position) :
    p.line ≤ (afterBlankLines comment bytes p).2.line := by
  fun_induction afterBlankLines comment bytes p with
  | case1 => exact Nat.le_refl _
  | case2 _ _ _ ih => exact Nat.le_of_succ_le ih
  | case3 _ _ _ _ _ _ ih => exact Nat.le_of_succ_le ih
  | case4 _ _ _ _ _ _ _ ih => exact ih
  | case5 _ _ _ _ _ _ _ _ ih => exact ih
  | case6 => exact Nat.le_refl _

/-- The next token is not above the cursor. -/
theorem Cursor.atToken_line (c : Cursor) : c.position.line ≤ c.atToken.position.line := by
  show _ ≤ c.toToken.position.line
  unfold toToken
  split
  · exact afterBlankLines_line false c.rest c.position
  · exact Nat.le_of_eq c.skipBlanks_line.1.symm

namespace Assembly

variable {setting : Setting} {s t u : State}

/-- The cursor in the current file. -/
def State.cursor (s : State) : Cursor :=
  s.files.current.cursor

/-- What holds between the steps of a pass over a text without inclusions: one file is open, a
statement begins at the cursor, and errors were noted line by line, none of them below it. -/
structure Orderly (s : State) : Prop where
  alone : s.files.outer = []
  fit : s.cursor.Fit
  includeFree : s.cursor.IncludeFree
  sorted : (s.errors.map fun d => d.location.line).Pairwise (· ≤ ·)
  noted : ∀ d ∈ s.errors, d.location.line ≤ s.cursor.position.line

/-- At most one error is noted, on the given line. -/
def Notes (line : Nat) (s t : State) : Prop :=
  t.errors = s.errors ∨ ∃ d, t.errors = s.errors ++ [d] ∧ d.location.line = line

/-- An error that is not above the others keeps the order. -/
theorem Notes.sorted {line : Nat} (h : Notes line s t)
    (hsorted : (s.errors.map fun d => d.location.line).Pairwise (· ≤ ·))
    (hnoted : ∀ d ∈ s.errors, d.location.line ≤ line) :
    (t.errors.map fun d => d.location.line).Pairwise (· ≤ ·) ∧
      ∀ d ∈ t.errors, d.location.line ≤ line := by
  rcases h with heq | ⟨e, heq, hline⟩
  · rw [heq]
    exact ⟨hsorted, hnoted⟩
  · rw [heq]
    refine ⟨?_, ?_⟩
    · rw [List.map_append, List.pairwise_append]
      refine ⟨hsorted, by simp, fun a ha b hb => ?_⟩
      obtain ⟨d, hd, rfl⟩ := List.mem_map.mp ha
      have hb' : b = e.location.line := by simpa using hb
      rw [hb', hline]
      exact hnoted d hd
    · intro d hd
      rcases List.mem_append.mp hd with hd | hd
      · exact hnoted d hd
      · rw [List.mem_singleton.mp hd]
        exact Nat.le_of_eq hline

/-! ### Steps -/

theorem carryOut_notes {statement : Statement} (hinclude : ∀ name, statement ≠ .includeFile name)
    (h : carryOut setting statement s = .next t) :
    t.files = s.files ∧ Notes s.cursor.statement.line s t := by
  have hpaired : Paired Eq s s _ _ := execute_paired emitsAlike_eq (.refl s) setting hinclude
  unfold carryOut at h
  generalize execute setting statement s = x at hpaired h
  cases hpaired with
  | ok _ left _ =>
    cases h
    exact ⟨left.files, .inl left.errors⟩
  | @failed error u _ _ left _ =>
    dsimp only at h
    split at h
    · cases h
    · cases h
      refine ⟨left.files, .inr ⟨s.diagnostic error, ?_, rfl⟩⟩
      rw [State.note, left.errors]
  | full => cases h

/-- A step of a pass that has a token ahead. -/
theorem step_of_token (h : Orderly s) (htoken : s.cursor.atToken.rest ≠ [])
    (hstep : step setting s = .next t) :
    t.files.outer = [] ∧ s.cursor.atToken.frame.Leads t.cursor ∧ t.cursor.IncludeFree ∧
      Notes s.cursor.atToken.frame.number s t := by
  have houtcome : Statement.Outcome s.cursor.atToken.frame
      (Statement.parse (s.context setting) s.reading) :=
    Statement.parse_outcome (r := s.reading) h.fit htoken
  obtain ⟨k, hk⟩ := Parser.exists_nth Statement.parse_grammatical s.reading
  have hfree : ((Statement.parse (s.context setting)).after s.reading).cursor.IncludeFree := by
    rw [hk]
    exact h.includeFree.nth k
  unfold step at hstep
  split at hstep
  · -- the end of the file is not ahead
    next r hparse =>
    rw [hparse] at houtcome
    cases houtcome with
    | read ending => exact absurd rfl ending
  · -- a token that begins no statement
    next r hparse =>
    rw [hparse] at houtcome
    rw [Parser.after_of_ok hparse] at hfree
    cases hstep
    cases houtcome with
    | read _ stays _ =>
      exact ⟨h.alone, .cleared stays.recover.cleared, stays.includeFree_recover hfree,
        .inr ⟨_, rfl, stays.statement⟩⟩
  · -- a statement that is carried out
    next statement r hend hundefined hparse =>
    have hinclude : ∀ name, statement ≠ .includeFile name := by
      rintro name rfl
      exact Statement.parse_ne_includeFile h.includeFree hparse
    rw [hparse] at houtcome
    rw [Parser.after_of_ok hparse] at hfree
    obtain ⟨hfiles, hnotes⟩ := carryOut_notes hinclude hstep
    cases houtcome with
    | read _ stays leads =>
      have hcursor : t.cursor = r.cursor := congrArg (fun files => files.current.cursor) hfiles
      have hline : (s.resume r).cursor.statement.line = s.cursor.atToken.frame.number :=
        stays.statement
      rw [hcursor]
      refine ⟨?_, leads hundefined, hfree, hline ▸ hnotes⟩
      rw [hfiles]
      exact h.alone
  · -- a statement that cannot be read
    next d r hparse =>
    rw [hparse] at houtcome
    rw [Parser.after_of_error hparse] at hfree
    split at hstep
    · cases hstep
    · cases hstep
      cases houtcome with
      | failed line stays =>
        exact ⟨h.alone, .cleared stays.recover.cleared, stays.includeFree_recover hfree,
          .inr ⟨_, rfl, line⟩⟩

/-- At the end of the only file a pass ends. -/
theorem step_of_ended (h : Orderly s) (hend : s.cursor.atToken.rest = []) :
    ∃ t, step setting s = .finished t ∧ Notes s.cursor.atToken.statement.line s t := by
  have hpop : (s.resume { s.reading with cursor := s.cursor.atToken }).files.pop? = none := by
    unfold OpenFiles.pop?
    split
    · rfl
    · next houter =>
      have hnil : s.files.outer = _ :: _ := houter
      rw [h.alone] at hnil
      cases hnil
  have hparse : Statement.parse (s.context setting) s.reading =
      .ok .endOfInput { s.reading with cursor := s.cursor.atToken } := Statement.parse_of_ended hend
  refine ⟨(s.resume { s.reading with cursor := s.cursor.atToken }).finish setting, ?_, ?_⟩
  · unfold step
    rw [hparse]
    dsimp only
    unfold endFile
    rw [hpop]
  · unfold State.finish
    split
    · exact .inr ⟨_, rfl, rfl⟩
    · exact .inl rfl

/-- With a token ahead a pass does not end. -/
theorem step_ne_finished (h : Orderly s) (htoken : s.cursor.atToken.rest ≠ []) :
    step setting s ≠ .finished t := by
  intro hstep
  have houtcome : Statement.Outcome s.cursor.atToken.frame
      (Statement.parse (s.context setting) s.reading) :=
    Statement.parse_outcome (r := s.reading) h.fit htoken
  unfold step at hstep
  split at hstep
  · next hparse =>
    rw [hparse] at houtcome
    cases houtcome with
    | read ending => exact ending rfl
  · cases hstep
  · unfold carryOut at hstep
    split at hstep
    · cases hstep
    · split at hstep <;> cases hstep
    · cases hstep
  · split at hstep <;> cases hstep

/-- What a step keeps, and that it stays on its line or leads behind it. -/
theorem Orderly.step (h : Orderly s) (hstep : step setting s = .next t) :
    s.cursor.atToken.rest ≠ [] ∧ s.cursor.atToken.frame.Leads t.cursor ∧ Orderly t := by
  have htoken : s.cursor.atToken.rest ≠ [] := by
    intro hend
    obtain ⟨u, hfinished, -⟩ : ∃ u, Assembly.step setting s = .finished u ∧ _ :=
      step_of_ended h hend
    rw [hfinished] at hstep
    cases hstep
  obtain ⟨halone, hleads, hfree, hnotes⟩ := step_of_token h htoken hstep
  have habove : ∀ d ∈ s.errors, d.location.line ≤ s.cursor.atToken.frame.number :=
    fun d hd => Nat.le_trans (h.noted d hd) s.cursor.atToken_line
  obtain ⟨hsorted, hnoted⟩ := hnotes.sorted h.sorted habove
  exact ⟨htoken, hleads, halone, hleads.fit, hfree, hsorted,
    fun d hd => Nat.le_trans (hnoted d hd) hleads.le_line⟩

theorem Orderly.reaches (h : Orderly s) (hreaches : Reaches setting s t) : Orderly t := by
  induction hreaches with
  | refl => exact h
  | tail _ hstep ih => exact (ih.step hstep).2.2

/-! ### Passes -/

/-- What a pass notes, it notes line by line. -/
theorem run_sorted (h : Orderly s) (hrun : run setting s = .ok () t) :
    (t.errors.map fun d => d.location.line).Pairwise (· ≤ ·) := by
  fun_induction run setting s with
  | case1 s u hstep ih => exact ih (h.step hstep).2.2 hrun
  | case2 s u hstep =>
    cases hrun
    by_cases hend : s.cursor.atToken.rest = []
    · obtain ⟨v, hfinished, hnotes⟩ : ∃ v, step setting s = .finished v ∧ Notes _ s v :=
        step_of_ended h hend
      rw [hfinished] at hstep
      cases hstep
      refine (hnotes.sorted h.sorted fun d hd => ?_).1
      rw [h.fit.coherent.atToken]
      exact Nat.le_trans (h.noted d hd) s.cursor.atToken_line
    · exact absurd hstep (step_ne_finished h hend)
  | case3 => cases hrun

/-- A pass that ends has come to the line behind the token that was ahead. -/
theorem exists_reaches_passed (h : Orderly s) (hrun : run setting s = .ok () t)
    (htoken : s.cursor.atToken.rest ≠ []) (hmore : s.cursor.atToken.frame.behind ≠ []) :
    ∃ u, Reaches setting s u ∧ u.cursor = s.cursor.atToken.frame.passed := by
  fun_induction run setting s with
  | case1 s u hstep ih =>
    obtain ⟨-, hleads, hu⟩ := h.step hstep
    have hreaches : Reaches setting s u := .single hstep
    cases hleads with
    | onLine fresh line solid cursor =>
      -- the next statement is on the same line
      have hrest : u.cursor.atToken.rest ≠ [] := by
        rw [cursor, Cursor.atToken_within fresh]
        simp [Cursor.within, solid]
      have hframe := Cursor.frame_within (f := s.cursor.atToken.frame) fresh line
      rw [← cursor] at hframe
      obtain ⟨v, hv, hpassed⟩ := ih hu hrun hrest (hframe ▸ hmore)
      exact ⟨v, hreaches.trans hv, hframe ▸ hpassed⟩
    | cleared hcleared =>
      cases hcleared with
      | passed _ cursor => exact ⟨u, hreaches, cursor⟩
      | ended last => exact absurd last hmore
  | case2 s u hstep => exact absurd hstep (step_ne_finished h htoken)
  | case3 => cases hrun

/-! ### Statements and lines -/

/-- Where the cursor behind `k` tokens of a text is, seen from a pass over it: where a statement
begins, or further on in a line on which one begins, or at the end. -/
inductive Trail (setting : Setting) (s : State) (k : Nat) (c : Cursor) : Prop where
  | statement {u : State} (reaches : Reaches setting s u) (cursor : u.cursor = c)
  | inside {u : State} {j : Nat} {d : Cursor} (reaches : Reaches setting s u)
      (earlier : j < k) (cursor : u.cursor = s.cursor.nth j) (token : u.cursor.atToken.rest ≠ [])
      (fresh : d.fresh = false) (line : Byte.OneLine d.rest)
      (within : c = d.within u.cursor.atToken.frame)
  | ended (rest : c.atToken.rest = [])

theorem trail (h : Orderly s) (hrun : run setting s = .ok () t) (k : Nat) :
    Trail setting s k (s.cursor.nth k) := by
  induction k with
  | zero => exact .statement .refl rfl
  | succ k ih =>
    rw [Cursor.nth]
    cases ih with
    | @statement u reaches cursor =>
      have hu := h.reaches reaches
      rw [← cursor]
      by_cases hend : u.cursor.atToken.rest = []
      · refine .ended ?_
        rw [Cursor.next_of_ended hend]
        exact Cursor.atToken_rest_of_nil hend
      · -- the first token of a line
        have hopens := Cursor.opens_of_fit (d := u.cursor.atToken.bare) hu.fit hend rfl rfl rfl
        refine .inside reaches (Nat.lt_succ_self k) cursor hend ?_ ?_
          (congrArg Prod.snd hopens.next)
        · exact (Cursor.scan_regular hopens.solid).fresh.trans hopens.fresh
        · exact hopens.line.of_suffix (Cursor.scan_suffix _)
    | @inside u j d reaches earlier cursor token fresh line within =>
      rw [within]
      rcases Cursor.next_within fresh line with ⟨hblank, hover, -⟩ | ⟨-, e, hfresh, hline, -, hnext⟩
      · rw [hover, Frame.beyond]
        split
        · next hlast =>
          refine .ended (Cursor.atToken_rest_of_nil ?_)
          simp [Cursor.within, hblank, hlast]
        · -- the next line, to which the pass comes too
          next hmore =>
          obtain ⟨v, hv, hpassed⟩ := exists_reaches_passed (h.reaches reaches)
            ((run_of_reaches reaches).symm.trans hrun) token hmore
          exact .statement (reaches.trans hv) hpassed
      · exact .inside reaches (Nat.lt_succ_of_lt earlier) cursor token hfresh hline hnext
    | ended rest =>
      refine .ended ?_
      rw [Cursor.next_of_ended rest]
      exact Cursor.atToken_rest_of_nil rest

/-- A statement begins at the first token of every line. -/
theorem exists_statement (h : Orderly s) (hrun : run setting s = .ok () t) {line k : Nat}
    (hline : (s.cursor.nth k).tokenLine? = some line)
    (hfirst : ∀ j < k, (s.cursor.nth j).tokenLine? ≠ some line) :
    ∃ u, Reaches setting s u ∧ u.cursor = s.cursor.nth k := by
  cases trail h hrun k with
  | @statement u reaches cursor => exact ⟨u, reaches, cursor⟩
  | @inside u j d reaches earlier cursor token fresh hd within =>
    -- another token of the line has been read before
    have hu := h.reaches reaches
    have hopens := Cursor.opens_of_fit (d := u.cursor.atToken.bare) hu.fit token rfl rfl rfl
    have hearlier := hfirst j earlier
    rw [← cursor, Cursor.tokenLine?_of_opens hopens] at hearlier
    rw [within] at hline
    rcases Cursor.next_within fresh hd with ⟨-, -, hnone⟩ | ⟨hsome, -⟩
    · rw [hnone] at hline
      cases hline
    · rw [hsome] at hline
      exact absurd hline hearlier
  | ended rest =>
    rw [Cursor.tokenLine?, Cursor.next_of_ended rest] at hline
    cases hline

/-- Reading a statement leaves the lines behind its own alone. -/
theorem Orderly.nextLine_suffix (h : Orderly s) :
    s.cursor.nextLine <:+ ((Statement.parse (s.context setting)).after s.reading).cursor.rest := by
  by_cases hend : s.cursor.atToken.rest = []
  · have hnil : s.cursor.nextLine = [] := by simp [Cursor.nextLine, Cursor.frame, hend]; rfl
    rw [hnil]
    exact List.nil_suffix
  · have houtcome : Statement.Outcome s.cursor.atToken.frame
        (Statement.parse (s.context setting) s.reading) :=
      Statement.parse_outcome (r := s.reading) h.fit hend
    unfold Parser.after
    generalize Statement.parse (s.context setting) s.reading = x at houtcome ⊢
    cases houtcome with
    | read _ stays _ => exact stays.suffix
    | failed _ stays => exact stays.suffix

/-- Behind a statement that cannot be read, or that is none, reading goes on with the next line. -/
theorem Orderly.resumed (h : Orderly s) {r : Reading}
    (hfail : (∃ d, Statement.parse (s.context setting) s.reading = .error d r) ∨
      Statement.parse (s.context setting) s.reading = .ok .undefined r) :
    s.cursor.atToken.frame.Resumed r.cursor.recover := by
  by_cases hend : s.cursor.atToken.rest = []
  · have hparse : Statement.parse (s.context setting) s.reading = .ok .endOfInput _ :=
      Statement.parse_of_ended hend
    rw [hparse] at hfail
    simp at hfail
  · have houtcome : Statement.Outcome s.cursor.atToken.frame
        (Statement.parse (s.context setting) s.reading) :=
      Statement.parse_outcome (r := s.reading) h.fit hend
    rcases hfail with ⟨d, hparse⟩ | hparse
    · rw [hparse] at houtcome
      cases houtcome with
      | failed _ stays => exact stays.recover
    · rw [hparse] at houtcome
      cases houtcome with
      | read _ stays _ => exact stays.recover

/-- The start of a pass over a text. -/
theorem orderly_start {source : Source} (hfiles : s.files = .start source) (herrors : s.errors = [])
    (hfree : (Cursor.ofBytes source.bytes).IncludeFree) : Orderly s := by
  have hcursor : s.cursor = .ofBytes source.bytes := by
    rw [State.cursor, hfiles]
    rfl
  have hfresh : s.cursor.fresh = true := by rw [hcursor]; rfl
  refine ⟨by rw [hfiles]; rfl, Cursor.fit_of_fresh hfresh, hcursor ▸ hfree, ?_, ?_⟩
  · rw [herrors]
    exact List.Pairwise.nil
  · rw [herrors]
    exact fun d hd => absurd hd List.not_mem_nil

/-- A pass over a text without inclusions that reaches its end has tried a statement at the first
token of every line.  No statement reads on behind the line end of its first token; behind one that
cannot be read or that is none, reading goes on at the start of the next line, or the text has
ended.  What went wrong is noted in the order of the lines. -/
theorem run_loses_no_line {source : Source} (hfiles : s.files = .start source)
    (herrors : s.errors = []) (hfree : (Cursor.ofBytes source.bytes).IncludeFree)
    (hrun : run setting s = .ok () t) :
    (∀ line k, ((Cursor.ofBytes source.bytes).nth k).tokenLine? = some line →
      (∀ j < k, ((Cursor.ofBytes source.bytes).nth j).tokenLine? ≠ some line) →
      ∃ u, Reaches setting s u ∧ u.cursor = (Cursor.ofBytes source.bytes).nth k) ∧
    (∀ u, Reaches setting s u → u.cursor.nextLine <:+
      ((Statement.parse (u.context setting)).after u.reading).cursor.rest) ∧
    (∀ u r, Reaches setting s u →
      ((∃ d, Statement.parse (u.context setting) u.reading = .error d r) ∨
        Statement.parse (u.context setting) u.reading = .ok .undefined r) →
      r.recover.cursor.rest = u.cursor.nextLine ∧ r.recover.cursor.fresh = true ∧
        (r.recover.cursor.rest = [] ∨
          r.recover.cursor.position = ⟨u.cursor.atToken.position.line + 1, 1⟩)) ∧
    (t.errors.map fun d => d.location.line).Pairwise (· ≤ ·) := by
  have h := orderly_start hfiles herrors hfree
  have hcursor : s.cursor = .ofBytes source.bytes := by
    rw [State.cursor, hfiles]
    rfl
  refine ⟨?_, fun u hu => (h.reaches hu).nextLine_suffix, ?_, run_sorted h hrun⟩
  · rw [← hcursor]
    exact fun line k => exists_statement h hrun
  · intro u r hu hfail
    have hresumed := (h.reaches hu).resumed hfail
    refine ⟨hresumed.rest, hresumed.fresh, ?_⟩
    by_cases hlast : u.cursor.atToken.frame.behind = []
    · refine .inl (hresumed.rest.trans ?_)
      rw [hlast]
      rfl
    · refine .inr ?_
      show r.cursor.recover.position = _
      rw [hresumed.passed hlast]
      rfl

/-- A text with a slip on most of its lines. -/
def slips : List UInt8 :=
  Byte.ofChars "loop: lda #\n ; none\n?? nop\n .byte 1,\n nop\nlast nop (".toList

/-- The first pass over the text. -/
def slipsSetting : Setting :=
  ⟨.first, .unchanged, .empty []⟩

def slipsStart : State :=
  ⟨.empty, .empty, .start ⟨"main", none, slips⟩, 0x1000, 0x1000, false, [], [], none⟩

/-- The lines of what a pass has noted, if it reached its end. -/
def notedLines : EStateM.Result Fault State Unit → Option (List Nat)
  | .ok _ t => some (t.errors.map fun d => d.location.line)
  | .error _ _ => none

theorem run_loses_no_line_slips :
    ∃ t, run slipsSetting slipsStart = .ok () t ∧
      (t.errors.map fun d => d.location.line) = [1, 3, 4, 6] ∧
      (∃ u, Reaches slipsSetting slipsStart u ∧ u.cursor = (Cursor.ofBytes slips).nth 12 ∧
        ((Cursor.ofBytes slips).nth 12).tokenLine? = some 5) ∧
      (t.errors.map fun d => d.location.line).Pairwise (· ≤ ·) := by
  have hwalk : (walk slipsSetting 12 slipsStart).bind (fun x => notedLines x.2) =
      some [1, 3, 4, 6] := by
    decide +kernel
  obtain ⟨⟨vs, result⟩, hsome, hresult⟩ := Option.bind_eq_some_iff.mp hwalk
  obtain ⟨-, hrun⟩ := walk_eq_some hsome
  cases result with
  | error fault t => cases hresult
  | ok x t =>
    have hfree : (Cursor.ofBytes slips).IncludeFree :=
      Cursor.includeFree_of_count (n := 20) (by decide +kernel) (by decide +kernel)
    have hline : ((Cursor.ofBytes slips).nth 12).tokenLine? = some 5 := by decide +kernel
    have hfirst : ∀ j < 12, ((Cursor.ofBytes slips).nth j).tokenLine? ≠ some 5 := by
      decide +kernel
    obtain ⟨hstatement, -, -, hsorted⟩ := run_loses_no_line rfl rfl hfree hrun
    obtain ⟨u, hu, hcursor⟩ := hstatement 5 12 hline hfirst
    exact ⟨t, hrun, Option.some.inj hresult, ⟨u, hu, hcursor, hline⟩, hsorted⟩

end Assembly

end Assembler6502
