/-
The lines of a calculation are independent of each other.

A calculation is read in one go, and each name that is looked at leaves a note
in the scopes.  Still every line comes out as if it were a text of its own,
evaluated on the scopes as they were in the beginning: an expression stays on its
line, and notes are no values.

* **`Cursor.Computes`** — an expression stands at the cursor, has a value, and
  the line ends behind it;
* **`Cursor.Opens.computes`** — this does not depend on what stands around the
  line;
* **`Calculator.line_eq_some_iff`** — the next line is such an expression;
* **`Calculator.linesFrom_iff`** — so are all the lines ahead that hold a token;
* **`Session.evaluateLines_independent`** — calculations, which succeed if every
  line does alone.

Design notes.  Expressions are compared by the grammar and not by the parser,
because the bounds of its loops depend on how much text there is.
-/
import Assembler6502.Proofs.Statement.Noting
import Assembler6502.Proofs.Statement.ShortestMode
import Assembler6502.Proofs.Token.FilledLines
import Assembler6502.Session

namespace Assembler6502

open Assembler6502.Parser

/-! ### Expressions on a line -/

/-- An expression does not go on behind its line. -/
theorem Derives.isEnding {part : Part} {ts : List (Lexeme Spelling)} {p : Phrase}
    (h : Derives part ts p) : ∀ l ∈ ts, l.isEnding = false := by
  induction h with
  | constant | here | name => simp [Lexeme.isEnding]
  | parens _ ih =>
    intro l hl
    simp only [List.mem_cons, List.mem_append, List.not_mem_nil, or_false] at hl
    rcases hl with rfl | hl | rfl
    · rfl
    · exact ih l hl
    · rfl
  | unary _ _ ih =>
    intro l hl
    rcases List.mem_cons.mp hl with rfl | hl
    · rfl
    · exact ih l hl
  | factor _ ih => exact ih
  | operands _ _ ihfirst ihrest =>
    intro l hl
    exact (List.mem_append.mp hl).elim (ihfirst l) (ihrest l)
  | stop => simp
  | more _ _ _ ihright ihrest =>
    intro l hl
    rcases List.mem_cons.mp hl with rfl | hl
    · rfl
    · exact (List.mem_append.mp hl).elim (ihright l) (ihrest l)

namespace Cursor

variable {c c' d e : Cursor} {f g : Frame} {ts : List (Lexeme Spelling)} {σ τ : Scopes} {k v : Int32}

theorem Opens.of_next {t : Token Spelling} (hf : c.Opens d f) (h : c.next = (.ok t, e)) :
    d.scan.1 = .ok t.lexeme ∧ t.position.line = f.number ∧ t.lexeme.isEnding = false ∧
      e = d.scan.2.within f := by
  have hnext := hf.next.symm.trans h
  cases hscan : d.scan.1 with
  | error error =>
    rw [hscan] at hnext
    cases hnext
  | ok l =>
    rw [hscan] at hnext
    cases hnext
    exact ⟨rfl, rfl, (scan_regular hf.solid).isEnding hscan, rfl⟩

/-- The next token is the same in both frames, and so is what is left of the line. -/
theorem Opens.next_reframed {t : Token Spelling} (hf : c.Opens d f) (hg : c'.Opens d g)
    (h : c.next = (.ok t, e)) :
    ∃ rest : Cursor, rest.fresh = false ∧ Byte.OneLine rest.rest ∧ e = rest.within f ∧
      c'.next = (.ok ⟨t.lexeme, ⟨g.number, d.position.column⟩⟩, rest.within g) := by
  obtain ⟨hscan, -, -, he⟩ := hf.of_next h
  refine ⟨d.scan.2, (scan_regular hf.solid).fresh.trans hf.fresh,
    hf.line.of_suffix d.scan_suffix, he, ?_⟩
  rw [hg.next, hscan]
  rfl

/-- The tokens of a line are the same in every frame. -/
theorem Tokens.reframed (h : (d.within f).Tokens ts e) (hfresh : d.fresh = false)
    (hline : Byte.OneLine d.rest) (hts : ∀ l ∈ ts, l.isEnding = false) (g : Frame) :
    ∃ rest : Cursor, rest.fresh = false ∧ Byte.OneLine rest.rest ∧ e = rest.within f ∧
      (d.within g).Tokens ts (rest.within g) := by
  induction ts generalizing d with
  | nil =>
    cases h
    exact ⟨d, hfresh, hline, rfl, .nil _⟩
  | cons l ts ih =>
    obtain ⟨t, c₁, hnext, rfl, hrest⟩ := h.of_cons
    -- a line that has ended would give a token that ends it
    have hsolid : d.skipBlanks.rest ≠ [] := by
      intro hblank
      rw [next_within_of_blank hfresh hblank] at hnext
      cases hnext
      exact absurd (hts _ List.mem_cons_self) (by rw [f.isEnding_ending]; exact Bool.noConfusion)
    obtain ⟨d₁, hfresh₁, hline₁, rfl, hnext'⟩ :=
      (opens_within (f := f) hfresh hline hsolid).next_reframed (opens_within hfresh hline hsolid)
        (g := g) hnext
    obtain ⟨rest, hfresh', hline', he, htokens⟩ :=
      ih hrest hfresh₁ hline₁ fun l hl => hts l (List.mem_cons_of_mem _ hl)
    have hall := Tokens.cons hnext' htokens
    exact ⟨rest, hfresh', hline', he, hall⟩

/-- An expression has a first token. -/
theorem Sentence.exists_first {p : Phrase} (h : c.Sentence ts p d) :
    ∃ t c₁ more, ts = t.lexeme :: more ∧ c.next = (.ok t, c₁) ∧ c₁.Tokens more d ∧
      ∀ l ∈ t.lexeme :: more, l.isEnding = false := by
  obtain ⟨l, more, rfl, -⟩ := h.derives.starts (by simp)
  obtain ⟨t, c₁, hnext, rfl, hmore⟩ := h.tokens.of_cons
  exact ⟨t, c₁, more, rfl, hnext, hmore, h.derives.isEnding⟩

/-- An expression with the value `v` stands at the cursor, where `*` is `k`, and the line or the
input ends behind it. -/
def Computes (c : Cursor) (σ : Scopes) (k v : Int32) (e : Cursor) : Prop :=
  ∃ ts p d t value, c.Sentence ts p d ∧ p.Defined σ ∧ (p.expr σ k).evaluate .second = .ok value ∧
    value.number = v ∧ d.next = (.ok t, e) ∧ t.lexeme.isEnding = true

/-- Only the values of names matter. -/
theorem Computes.congr (h : c.Computes σ k v e) (hresolve : ∀ name, τ.resolve name = σ.resolve name) :
    c.Computes τ k v e := by
  obtain ⟨ts, p, d, t, value, hsentence, hdefined, hvalue, hrest⟩ := h
  refine ⟨ts, p, d, t, value, hsentence, ?_, ?_, hrest⟩
  · rwa [Phrase.defined_congr p hresolve]
  · rwa [Phrase.expr_congr k p hresolve]

theorem Computes.exists_next (h : c.Computes σ k v e) :
    ∃ t d, c.next = (.ok t, d) ∧ t.lexeme.isEnding = false := by
  obtain ⟨ts, p, d, -, -, hsentence, -⟩ := h
  obtain ⟨t, c₁, more, rfl, hnext, -, hproper⟩ := hsentence.exists_first
  exact ⟨t, c₁, hnext, hproper _ List.mem_cons_self⟩

theorem Computes.length_lt (h : c.Computes σ k v e) : e.rest.length < c.rest.length := by
  obtain ⟨ts, p, d, t, -, hsentence, -, -, -, hend, -⟩ := h
  obtain ⟨t', c₁, more, rfl, hnext, hmore, hproper⟩ := hsentence.exists_first
  have hfirst := length_lt_of_next hnext
    (Lexeme.ne_of_isEnding rfl (hproper _ List.mem_cons_self)).symm
  have hlast := d.next_suffix.length_le
  rw [hend] at hlast
  calc e.rest.length ≤ d.rest.length := hlast
    _ ≤ c₁.rest.length := hmore.length_le
    _ < c.rest.length := hfirst

/-- What stands around a line has no influence on an expression there, and reading goes on behind
the line. -/
theorem Opens.computes (hf : c.Opens d f) (hg : c'.Opens d g) (h : c.Computes σ k v e) :
    ∃ rest : Cursor, rest.fresh = false ∧ rest.rest = [] ∧ e = f.beyond rest ∧
      c'.Computes σ k v (g.beyond rest) := by
  obtain ⟨ts, p, d₂, t₂, value, hsentence, hdefined, hvalue, hv, hend, hending⟩ := h
  -- the first token may stand behind blank lines, those behind it are on its line
  obtain ⟨t, c₁, more, rfl, hnext, hmore, hproper⟩ := hsentence.exists_first
  obtain ⟨d₁, hfresh₁, hline₁, rfl, hnext'⟩ := hf.next_reframed hg hnext
  obtain ⟨last, hfresh, hline, rfl, htokens⟩ :=
    hmore.reframed hfresh₁ hline₁ (fun l hl => hproper l (List.mem_cons_of_mem _ hl)) g
  -- the token behind the expression ends the line, so nothing is left there
  have hblank : last.skipBlanks.rest = [] := by
    refine Decidable.not_not.mp fun hsolid => ?_
    obtain ⟨-, -, hnot, -⟩ := (opens_within (f := f) hfresh hline hsolid).of_next hend
    rw [hending] at hnot
    cases hnot
  rw [next_within_of_blank hfresh hblank] at hend
  cases hend
  have hend' := next_within_of_blank (f := g) hfresh hblank
  refine ⟨last.skipBlanks, last.skipBlanks_fresh.trans hfresh, hblank, rfl, ?_⟩
  have hall := Tokens.cons hnext' htokens
  have hstops : (last.within g).EndsExpression :=
    ⟨_, _, hend', fun op => Lexeme.ne_of_isEnding g.isEnding_ending rfl⟩
  exact ⟨_, p, last.within g, _, value, ⟨hall, hsentence.derives, hstops⟩, hdefined, hvalue, hv,
    hend', g.isEnding_ending⟩

/-- It is what the parser evaluates, up to a token that ends the line. -/
theorem computes_iff (r : Reading) :
    r.cursor.Computes r.scopes k v e ↔
      ∃ value r' t, Value.parse (.plain .second k) r = .ok value r' ∧ value.number = v ∧
        r'.cursor.next = (.ok t, e) ∧ t.lexeme.isEnding = true := by
  constructor
  · rintro ⟨ts, p, d, t, value, hsentence, hdefined, hevaluate, hv, hend, hending⟩
    obtain ⟨r', rfl, hparse⟩ :=
      Expr.value_of_sentence (c := .plain .second k) rfl hsentence hdefined
    have hvalue : Value.parse (.plain .second k) r = .ok value r' :=
      hparse.trans (congrArg (lift · r') hevaluate)
    exact ⟨value, r', t, hvalue, hv, hend, hending⟩
  · rintro ⟨value, r', t, hvalue, hv, hend, hending⟩
    obtain ⟨ts, p, hsentence, hdefined, hevaluate⟩ := Expr.sentence_of_value rfl hvalue
    exact ⟨ts, p, r'.cursor, t, value, hsentence, hdefined, hevaluate, hv, hend, hending⟩

end Cursor

/-! ### Lines of a calculation -/

theorem Lexeme.bind_ne_endOfInput {σ : Scopes} {l : Lexeme Spelling} (h : l.isEnding = false) :
    (l.bind σ).1 ≠ .endOfInput :=
  (ne_of_isEnding rfl ((bind_isEnding σ l).trans h)).symm

namespace Calculator

variable {r r' : Reading} {k v : Int32} {n : Nat} {e : Cursor}

theorem line_grammatical (k : Int32) : Grammatical (line k) := by
  refine .bind .peek fun token => ?_
  split
  · exact .pure _
  · refine .bind Value.parse_grammatical fun value => .bind .next fun token => ?_
    split
    · exact .pure _
    · exact .pure _
    · exact .fail rfl

theorem linesFrom_grammatical (n : Nat) (k : Int32) : Grammatical (linesFrom n k) := by
  induction n generalizing k with
  | zero => exact .pure _
  | succ n ih =>
    refine .bind (line_grammatical k) fun entry => ?_
    cases entry with
    | none => exact .pure _
    | some entry => exact .map (ih (k + 1))

/-- At the end of the text there is no line. -/
theorem line_of_ended (h : r.cursor.atToken.rest = []) : line k r = .ok none r :=
  bind_of_ok (peek_of_cursor (Cursor.next_of_ended h))

/-- The next line is an expression with a value, up to the end of the line. -/
theorem line_eq_some_iff :
    (∃ r', line k r = .ok (some (n, v)) r' ∧ r'.cursor = e) ↔
      (∃ t d, r.cursor.next = (.ok t, d) ∧ t.position.line = n) ∧
        r.cursor.Computes r.scopes k v e := by
  unfold line
  constructor
  · rintro ⟨r', h, rfl⟩
    obtain ⟨token, r₁, hpeek, h⟩ := bind_eq_ok h
    obtain ⟨t, d, hnext, rfl, rfl⟩ := peek_eq_ok hpeek
    split at h
    · cases h
    · obtain ⟨value, r₂, hvalue, h⟩ := bind_eq_ok h
      obtain ⟨last, r₃, hlast, h⟩ := bind_eq_ok h
      obtain ⟨⟨l, q⟩, hend, rfl, -⟩ := next_eq_ok hlast
      -- looking at the first token has noted it, which makes no difference
      have hresolve := (r.sameValues_bind t.lexeme r.cursor).resolve
      have hcomputes : l.isEnding = true → r.cursor.Computes r.scopes k value.number r₃.cursor :=
        fun hending => ((Cursor.computes_iff { r with scopes := _ }).mpr
          ⟨value, r₂, ⟨l, q⟩, hvalue, rfl, hend, hending⟩).congr fun name => (hresolve name).symm
      cases l with
      | lineEnd | endOfInput =>
        cases h
        exact ⟨⟨t, d, hnext, rfl⟩, hcomputes rfl⟩
      | _ => cases h
  · rintro ⟨⟨t, d, hnext, rfl⟩, hcomputes⟩
    obtain ⟨t', d', hnext', hproper⟩ := hcomputes.exists_next
    cases hnext.symm.trans hnext'
    obtain ⟨value, r₂, ⟨l, q⟩, hvalue, rfl, hend, hending⟩ :=
      (Cursor.computes_iff { r with scopes := (t.lexeme.bind r.scopes).2 }).mp
        (hcomputes.congr (r.sameValues_bind t.lexeme r.cursor).resolve)
    rw [bind_of_ok (peek_of_cursor hnext), if_neg (Lexeme.bind_ne_endOfInput hproper)]
    cases l with
    | lineEnd | endOfInput =>
      exact ⟨{ r₂ with cursor := e },
        (bind_of_ok hvalue).trans (bind_of_ok (next_of_cursor hend)), rfl⟩
    | _ => cases hending

section

variable {d : Cursor} {f g : Frame} {σ : Scopes} {text : List UInt8}

/-- Where there is a token, there is a line. -/
theorem line_ne_none (hf : r.cursor.Opens d f) : line k r ≠ .ok none r' := by
  intro h
  obtain ⟨token, r₁, hpeek, h⟩ := bind_eq_ok h
  obtain ⟨t, c₁, hnext, rfl, -⟩ := peek_eq_ok hpeek
  obtain ⟨-, -, hproper, -⟩ := hf.of_next hnext
  rw [if_neg (Lexeme.bind_ne_endOfInput hproper)] at h
  obtain ⟨value, r₂, -, h⟩ := bind_eq_ok h
  obtain ⟨last, r₃, -, h⟩ := bind_eq_ok h
  generalize last.lexeme = l at h
  cases l <;> cases h

/-- A line is evaluated as if it were alone. -/
theorem line_alone_iff (hf : r.cursor.Opens d f) (hg : (Cursor.ofBytes text).Opens d g)
    (hσ : ∀ name, r.scopes.resolve name = σ.resolve name) :
    (∃ r', line k r = .ok (some (n, v)) r') ↔
      n = f.number ∧ ∃ e, (Cursor.ofBytes text).Computes σ k v e := by
  constructor
  · rintro ⟨r', h⟩
    obtain ⟨⟨t, c₁, hnext, rfl⟩, hcomputes⟩ := line_eq_some_iff.mp ⟨r', h, rfl⟩
    obtain ⟨rest, -, -, -, halone⟩ := hf.computes hg (hcomputes.congr fun name => (hσ name).symm)
    exact ⟨(hf.of_next hnext).2.1, _, halone⟩
  · rintro ⟨rfl, e, halone⟩
    obtain ⟨rest, -, -, -, hcomputes⟩ := hg.computes hf halone
    obtain ⟨t, c₁, hnext, -⟩ := hcomputes.exists_next
    obtain ⟨r', h, -⟩ :=
      line_eq_some_iff.mpr ⟨⟨t, c₁, hnext, (hf.of_next hnext).2.1⟩, hcomputes.congr hσ⟩
    exact ⟨r', h⟩

/-- Reading goes on behind the line of a frame, with the values of the scopes `σ`. -/
structure GoesOn (f : Frame) (σ : Scopes) (r r' : Reading) : Prop where
  between : r'.cursor.Between
  ahead : r'.cursor.ahead = f.later
  shorter : r'.cursor.rest.length < r.cursor.rest.length
  resolve : ∀ name, r'.scopes.resolve name = σ.resolve name

theorem goesOn_of_line (hf : r.cursor.Opens d f)
    (hσ : ∀ name, r.scopes.resolve name = σ.resolve name)
    (h : line k r = .ok (some (n, v)) r') : GoesOn f σ r r' := by
  obtain ⟨-, hcomputes⟩ := line_eq_some_iff.mp ⟨r', h, rfl⟩
  obtain ⟨rest, hfresh, hrest, hcursor, -⟩ := hf.computes hf hcomputes
  have hnotes := (line_grammatical k).notes r
  rw [after_of_ok h] at hnotes
  refine ⟨?_, ?_, hcomputes.length_lt, fun name => (hnotes.undisturbed.resolve name).trans (hσ name)⟩
  · rw [hcursor]
    exact Cursor.between_beyond f hfresh hrest
  · rw [hcursor]
    exact Cursor.ahead_beyond f hfresh

end

/-- What a line contributes: its number, and the value that it has alone.  It comes with its place
among the lines that hold a token. -/
def Contributes (σ : Scopes) (line : (List UInt8 × Nat) × Nat) (entry : Nat × Int32) : Prop :=
  entry.1 = line.1.2 ∧
    ∃ e, (Cursor.ofBytes line.1.1).Computes σ (Int32.ofNat line.2) entry.2 e

/-- A calculation succeeds if every line ahead that holds a token can be evaluated alone, and then
it has the values that these lines have alone. -/
theorem linesFrom_iff {σ : Scopes} {j : Nat} {entries : List (Nat × Int32)}
    (hn : r.cursor.rest.length < n) (hbetween : r.cursor.Between)
    (hσ : ∀ name, r.scopes.resolve name = σ.resolve name) :
    (∃ r', linesFrom n (Int32.ofNat j) r = .ok entries r') ↔
      List.Forall₂ (Contributes σ) (r.cursor.ahead.zipIdx j) entries := by
  -- each line takes a byte, so the bound stays above the bytes that are left
  induction n generalizing r j entries with
  | zero => omega
  | succ n ih =>
    have hsucc : Int32.ofNat j + 1 = Int32.ofNat (j + 1) := (Int32.ofNat_add j 1).symm
    unfold linesFrom
    rcases Cursor.ahead_cases hbetween with ⟨hahead, hended⟩ | ⟨d, f, g, text, hf, hg, hahead⟩
    · -- the text has ended
      rw [bind_of_ok (line_of_ended hended), hahead, List.zipIdx_nil, List.forall₂_nil_left_iff]
      constructor
      · rintro ⟨r', h⟩
        cases h
        rfl
      · rintro rfl
        exact ⟨r, rfl⟩
    · rw [hahead, List.zipIdx_cons]
      constructor
      · rintro ⟨r', h⟩
        obtain ⟨_ | ⟨m, v⟩, r₁, hline, h⟩ := bind_eq_ok h
        · exact absurd hline (line_ne_none hf)
        · obtain ⟨rest, r₂, hrest, h⟩ := bind_eq_ok h
          cases h
          have hon := goesOn_of_line hf hσ hline
          have hlt := Nat.lt_of_lt_of_le hon.shorter (Nat.le_of_lt_succ hn)
          obtain ⟨rfl, halone⟩ := (line_alone_iff hf hg hσ).mp ⟨r₁, hline⟩
          rw [hsucc] at hrest
          have hlater := (ih hlt hon.between hon.resolve).mp ⟨r', hrest⟩
          rw [hon.ahead] at hlater
          exact .cons ⟨rfl, halone⟩ hlater
      · intro h
        cases h with
        | @cons _ entry _ rest hfirst hlater =>
          obtain ⟨m, v⟩ := entry
          obtain ⟨r₁, hline⟩ := (line_alone_iff hf hg hσ).mpr hfirst
          have hon := goesOn_of_line hf hσ hline
          have hlt := Nat.lt_of_lt_of_le hon.shorter (Nat.le_of_lt_succ hn)
          rw [← hon.ahead] at hlater
          obtain ⟨r₂, hrest⟩ := (ih hlt hon.between hon.resolve).mpr hlater
          rw [← hsucc] at hrest
          exact ⟨r₂, (bind_of_ok hline).trans (bind_of_ok hrest)⟩

/-- A line contributes something if it can be evaluated alone. -/
theorem exists_contributes_iff {σ : Scopes} {text : List UInt8} {i : Nat} (name : String) :
    (∃ entry, Contributes σ ((text, n), i) entry) ↔
      ∃ entry r', line (Int32.ofNat i) (.start ⟨name, none, text⟩ σ) = .ok (some entry) r' := by
  constructor
  · rintro ⟨⟨m, v⟩, -, e, hcomputes⟩
    obtain ⟨t, d, hnext, -⟩ := hcomputes.exists_next
    obtain ⟨r', hline, -⟩ := (line_eq_some_iff (r := .start ⟨name, none, text⟩ σ)).mpr
      ⟨⟨t, d, hnext, rfl⟩, hcomputes⟩
    exact ⟨_, r', hline⟩
  · rintro ⟨⟨m, v⟩, r', hline⟩
    obtain ⟨-, hcomputes⟩ := line_eq_some_iff.mp ⟨r', hline, rfl⟩
    exact ⟨(n, v), rfl, _, hcomputes⟩

/-- Each entry is the contribution of the line at its place. -/
theorem Contributes.of_getElem? {σ : Scopes} {lines : List (List UInt8 × Nat)}
    {entries : List (Nat × Int32)} (h : List.Forall₂ (Contributes σ) lines.zipIdx entries) {i : Nat}
    {entry : Nat × Int32} (hentry : entries[i]? = some entry) :
    ∃ line, lines[i]? = some line ∧ Contributes σ (line, i) entry := by
  obtain ⟨hi, rfl⟩ := List.getElem?_eq_some_iff.mp hentry
  have hlength := h.length_eq
  rw [List.length_zipIdx] at hlength
  have hline := h.get (i := i) (by rw [List.length_zipIdx]; omega) hi
  rw [List.get_eq_getElem, List.getElem_zipIdx, Nat.zero_add] at hline
  exact ⟨_, List.getElem?_eq_getElem (by omega), hline⟩

/-- The numbers of the entries are those of the lines. -/
theorem Contributes.map_fst {σ : Scopes} {lines : List (List UInt8 × Nat)}
    {entries : List (Nat × Int32)} (h : List.Forall₂ (Contributes σ) lines.zipIdx entries) :
    entries.map Prod.fst = lines.map Prod.snd := by
  have hnumbers : List.Forall₂ Eq (lines.zipIdx.map (Prod.snd ∘ Prod.fst)) (entries.map Prod.fst) :=
    List.forall₂_map_left_iff.mpr (List.forall₂_map_right_iff.mpr (h.imp fun _ _ h => h.1.symm))
  rw [List.forall₂_eq_eq_eq, ← List.map_map, List.zipIdx_map_fst] at hnumbers
  exact hnumbers.symm

end Calculator

theorem exists_forall₂_iff {α β : Type} {R : α → β → Prop} {l : List α} :
    (∃ l', List.Forall₂ R l l') ↔ ∀ x ∈ l, ∃ y, R x y := by
  induction l with
  | nil => simp
  | cons x l ih =>
    simp only [List.forall₂_cons_left_iff, List.forall_mem_cons, ← ih]
    constructor
    · rintro ⟨-, y, l', hy, hl', rfl⟩
      exact ⟨⟨y, hy⟩, l', hl'⟩
    · rintro ⟨⟨y, hy⟩, l', hl'⟩
      exact ⟨_, y, l', hy, hl', rfl⟩

namespace Session

variable {s : Session} {name : String} {bytes : List UInt8} {entries : List (Nat × Int32)}

theorem evaluateLines_iff_lines :
    (∃ s', evaluateLines name bytes s = .ok entries s') ↔
      ∃ r', Calculator.lines (.start ⟨name, none, bytes⟩ s.scopes) = .ok entries r' := by
  unfold evaluateLines
  split
  · next hlines =>
    rw [hlines]
    simp
  · next hlines =>
    rw [hlines]
    simp

theorem evaluateLines_iff :
    (∃ s', evaluateLines name bytes s = .ok entries s') ↔
      List.Forall₂ (Calculator.Contributes s.scopes) (Byte.filled bytes 1).zipIdx entries :=
  evaluateLines_iff_lines.trans
    (Calculator.linesFrom_iff (r := .start ⟨name, none, bytes⟩ s.scopes) (j := 0)
      (Nat.lt_succ_self bytes.length) (Cursor.between_ofBytes bytes) fun _ => rfl)

/-- A calculation changes nothing in the session but the notes in its scopes. -/
theorem evaluateLines_undisturbed (s : Session) (name : String) (bytes : List UInt8) :
    ∃ σ, s.scopes.Undisturbed σ ∧
      ((∃ entries, evaluateLines name bytes s = .ok entries { s with scopes := σ }) ∨
        ∃ d, evaluateLines name bytes s = .error d { s with scopes := σ }) := by
  have hnotes : s.scopes.Notes (Calculator.lines.after (.start ⟨name, none, bytes⟩ s.scopes)).scopes :=
    (Calculator.linesFrom_grammatical (bytes.length + 1) 0).notes (.start ⟨name, none, bytes⟩ s.scopes)
  refine ⟨_, hnotes.undisturbed, ?_⟩
  unfold evaluateLines
  split
  · next hlines => exact .inl ⟨_, by rw [after_of_ok hlines]⟩
  · next hlines => exact .inr ⟨_, by rw [after_of_error hlines]⟩

/-- The lines of a calculation are independent.  A calculation that succeeds has an entry for every
line that holds a token, in the order of the lines, and the value of the `k`-th is the value of its
line as a text of its own, where `*` is `k`, on the scopes before the calculation.  It succeeds if all
these lines can be evaluated alone.  In any case no value of any scope changes. -/
theorem evaluateLines_independent (s : Session) (name : String) (bytes : List UInt8) :
    (∀ entries s', evaluateLines name bytes s = .ok entries s' →
      (entries.map Prod.fst).Pairwise (· < ·) ∧
      (∀ n, n ∈ entries.map Prod.fst ↔ Byte.holdsToken (Byte.line bytes n) = true) ∧
      ∀ k n v, entries[k]? = some (n, v) →
        ∃ value r', Value.parse (.plain .second (Int32.ofNat k))
            (.start ⟨name, none, Byte.line bytes n⟩ s.scopes) = .ok value r' ∧ value.number = v) ∧
    ((∃ entries s', evaluateLines name bytes s = .ok entries s') ↔
      ∀ k text n, (Byte.filled bytes 1)[k]? = some (text, n) →
        ∃ entry r', Calculator.line (Int32.ofNat k) (.start ⟨name, none, text⟩ s.scopes) =
          .ok (some entry) r') ∧
    ∃ σ, s.scopes.Undisturbed σ ∧
      ((∃ entries, evaluateLines name bytes s = .ok entries { s with scopes := σ }) ∨
        ∃ d, evaluateLines name bytes s = .error d { s with scopes := σ }) := by
  refine ⟨fun entries s' h => ?_, ?_, evaluateLines_undisturbed s name bytes⟩
  · have hall := evaluateLines_iff.mp ⟨s', h⟩
    rw [Calculator.Contributes.map_fst hall]
    refine ⟨Byte.pairwise_filled bytes 1, fun n => ?_, fun k n v hentry => ?_⟩
    · rw [List.mem_map]
      constructor
      · rintro ⟨⟨text, m⟩, hmem, rfl⟩
        obtain ⟨rfl, hholds⟩ := Byte.mem_filled.mp hmem
        exact hholds
      · exact fun hholds => ⟨(Byte.line bytes n, n), Byte.mem_filled.mpr ⟨rfl, hholds⟩, rfl⟩
    · obtain ⟨⟨text, m⟩, hline, hnumber, e, hcomputes⟩ :=
        Calculator.Contributes.of_getElem? hall hentry
      cases hnumber
      obtain ⟨rfl, -⟩ := Byte.mem_filled.mp (List.mem_of_getElem? hline)
      obtain ⟨value, r', -, hvalue, hv, -⟩ :=
        (Cursor.computes_iff (.start ⟨name, none, Byte.line bytes n⟩ s.scopes)).mp hcomputes
      exact ⟨value, r', hvalue, hv⟩
  · simp only [evaluateLines_iff, exists_forall₂_iff]
    constructor
    · intro h k text n hline
      exact (Calculator.exists_contributes_iff name).mp
        (h ((text, n), k) (List.mk_mem_zipIdx_iff_getElem?.mpr hline))
    · rintro h ⟨⟨text, n⟩, k⟩ hmem
      exact (Calculator.exists_contributes_iff name).mpr
        (h k text n (List.mk_mem_zipIdx_iff_getElem?.mp hmem))

/-- Four lines, the second blank and the third a comment; the first ends with a pair. -/
def calculation : List UInt8 :=
  Byte.ofChars "v<<2\r\n\n ; sum\n *+v ; end".toList

/-- The session in which `v` is the address 7. -/
def calculating : Session :=
  { start {} with scopes := Scopes.empty.insert "v" ⟨.label, some 7⟩ }

/-- The last line is the second that is evaluated, so `*` is one there. -/
theorem evaluateLines_independent_comments :
    ∃ s', evaluateLines "sums" calculation calculating = .ok [(1, 28), (4, 8)] s' ∧
      (∀ n, n ∈ [1, 4] ↔ Byte.holdsToken (Byte.line calculation n) = true) ∧
      ∃ value r', Value.parse (.plain .second 1)
          (.start ⟨"sums", none, Byte.line calculation 4⟩ calculating.scopes) = .ok value r' ∧
        value.number = 8 := by
  obtain ⟨s', h⟩ : ∃ s', evaluateLines "sums" calculation calculating = .ok [(1, 28), (4, 8)] s' :=
    evaluateLines_iff_lines.mpr (Parser.exists_of_result? (by decide +kernel))
  obtain ⟨-, hlines, hvalues⟩ :=
    (evaluateLines_independent calculating "sums" calculation).1 [(1, 28), (4, 8)] s' h
  exact ⟨s', h, hlines, hvalues 1 4 8 rfl⟩

end Session

end Assembler6502
