/-
Including a file is the same as writing its text.

A text in which a line includes a file is assembled like the text with the
contents of the file in place of the line: both runs succeed with the same
image, report and names, or both fail with the same errors, places aside.

* **`includes_includeLine`** — the line with the directive includes the file;
* **`runPass_spliced`** — a pass over one text ends like a pass over the other;
* **`assemble_include`** — so does a run.
-/
import Mathlib.Data.List.TakeWhile
import Assembler6502.Proofs.Assembly.Splicing
import Assembler6502.Proofs.Disk.Changes
import Assembler6502.Proofs.Session.Faults
import Assembler6502.Proofs.Session.Outcome
import Assembler6502.Proofs.Token.Points

namespace Assembler6502

open Assembler6502.Assembly

/-! ### The line that includes a file -/

namespace Byte

/-- The directive that includes a file, with the name of the file in quotes. -/
def includeLine (file : List UInt8) : List UInt8 :=
  ofChars ".include \"".toList ++ file ++ [0x22]

variable {file : List UInt8}

theorem isLineEnd_of_isQuotable {b : UInt8} (h : isQuotable b = true) : isLineEnd b = false := by
  unfold isQuotable at h
  cases hb : isLineEnd b with
  | false => rfl
  | true =>
    rw [hb] at h
    cases h

theorem oneLine_includeLine (h : ∀ b ∈ file, isQuotable b = true) :
    OneLine (includeLine file) := by
  intro b hb
  have hword : ∀ b ∈ ofChars ".include \"".toList, isLineEnd b = false := by
    decide +kernel
  rcases List.mem_append.mp hb with hb | hb
  · rcases List.mem_append.mp hb with hb | hb
    · exact hword b hb
    · exact isLineEnd_of_isQuotable (h b hb)
  · cases List.mem_singleton.mp hb
    rfl

theorem agenda_includeLine (h : ∀ b ∈ file, isQuotable b = true) :
    agenda (includeLine file) = [(1, includeLine file)] := by
  have hline := oneLine_includeLine h
  have hahead : Cursor.afterBlankLines false (includeLine file) .start =
      (includeLine file, .start) := rfl
  have htext : lineText (includeLine file) = includeLine file :=
    List.takeWhile_eq_self_iff.mpr fun b hb => by simp [hline b hb]
  have hbehind : behindLine (includeLine file) = [] := by
    have hdrop : (includeLine file).dropWhile (fun b => !isLineEnd b) = [] :=
      List.dropWhile_eq_nil_iff.mpr fun b hb => by simp [hline b hb]
    rw [behindLine, hdrop]
    rfl
  rw [agenda_eq (includeLine file) (p := .start) rfl, hahead, htext, hbehind, agenda_nil]
  exact if_neg (List.cons_ne_nil _ _)

/-- Whole lines in front of a text. -/
theorem agenda_append_of_ended {before : List UInt8}
    (h : before = [] ∨ before.getLast? = some 0x0a) (behind : List UInt8) :
    agenda (before ++ behind) = agenda before ++ agenda behind := by
  rcases h with rfl | hlast
  · rw [agenda_nil]
    rfl
  · obtain ⟨text, rfl⟩ := List.getLast?_eq_some_iff.mp hlast
    rw [agenda_append text [], agenda_nil, List.append_nil, List.append_assoc]
    exact agenda_append text behind

end Byte

namespace Cursor

variable {c : Cursor} {file : List UInt8}

theorem scan_include (h : c.rest = Byte.includeLine file) :
    c.scan = (.ok (.directive .includeFile), (c.skip 1).skipWhile Byte.isWord) ∧
      ((c.skip 1).skipWhile Byte.isWord).rest = 0x20 :: 0x22 :: (file ++ [0x22]) := by
  have hfirst : c.rest = '.'.toUInt8 :: (Byte.includeLine file).tail := h
  have hword : c.scan = c.word := Point.scan_eq_word hfirst (by decide)
  have htext : Byte.foldedText (c.rest.take 1 ++ (c.rest.drop 1).takeWhile Byte.isWord) =
      ".include" := by
    rw [h]
    rfl
  refine ⟨?_, ?_⟩
  · rw [hword, word, htext]
    rfl
  · show (c.rest.drop 1).dropWhile Byte.isWord = _
    rw [h]
    rfl

theorem skipBlanks_file (h : c.rest = 0x20 :: 0x22 :: (file ++ [0x22])) :
    c.skipBlanks.rest = 0x22 :: (file ++ [0x22]) := by
  obtain ⟨rest, position, fresh, statement⟩ := c
  cases h
  rfl

theorem scan_file (hfile : file ≠ []) (hquotable : ∀ b ∈ file, Byte.isQuotable b = true)
    (h : c.rest = 0x22 :: (file ++ [0x22])) :
    ∃ d, c.scan = (.ok (.quoted file), d) ∧ d.fresh = c.fresh ∧ d.rest = [] := by
  have hscan : c.scan = c.quoted := by
    unfold scan
    rw [h]
    rfl
  have hopened : (c.skip 1).rest = file ++ [0x22] := by
    rw [skip, h]
    rfl
  have htake : (file ++ [0x22]).takeWhile Byte.isQuotable = file := by
    rw [List.takeWhile_append_of_pos hquotable]
    exact List.append_nil file
  have hdrop : (file ++ [0x22]).dropWhile Byte.isQuotable = [0x22] := by
    rw [List.dropWhile_append_of_pos hquotable]
    rfl
  have hclosed : ((c.skip 1).skipWhile Byte.isQuotable).rest = [0x22] := by
    rw [skipWhile, hopened]
    exact hdrop
  refine ⟨((c.skip 1).skipWhile Byte.isQuotable).skip 1, ?_, rfl, ?_⟩
  · rw [hscan, quoted]
    simp only [sees, hclosed, hopened, htake]
    simp [hfile, Byte.char]
  · rw [skip, hclosed]
    rfl

end Cursor

theorem Parser.next_of_opens {r : Reading} {d e : Cursor} {f : Frame} {l : Lexeme Spelling}
    {l' : Lexeme Name} (h : r.cursor.Opens d f) (hscan : d.scan = (.ok l, e))
    (hl : l.bind r.scopes = (l', r.scopes)) :
    next r = .ok ⟨l', ⟨f.number, d.position.column⟩⟩ { r with cursor := e.within f } := by
  have hnext : r.cursor.next = (.ok ⟨l, ⟨f.number, d.position.column⟩⟩, e.within f) := by
    rw [h.next, hscan]
    rfl
  rw [next_of_cursor hnext, hl]

namespace Assembly

variable {disk : Disk} {file text : List UInt8}

/-- Whatever reads the line with the directive reads all of it. -/
theorem parse_includeLine (context : Context) {r : Reading} {rest : List (Nat × List UInt8)}
    (hfile : file ≠ []) (hquotable : ∀ b ∈ file, Byte.isQuotable b = true) (hfit : r.cursor.Fit)
    (hagenda : r.cursor.agenda = (1, Byte.includeLine file) :: rest) :
    ∃ cursor, Statement.parse context r =
        .ok (.includeFile (Utf8.decode file)) { r with cursor } ∧
      cursor.Fit ∧ cursor.agenda = rest := by
  obtain ⟨htoken, hline, rfl⟩ := Cursor.agenda_eq_cons hagenda
  have hrest : r.cursor.atToken.bare.rest = Byte.includeLine file := (Prod.mk.inj hline).2.symm
  have hopens := Cursor.opens_of_fit hfit htoken (d := r.cursor.atToken.bare) rfl rfl rfl
  obtain ⟨hscan, hword⟩ := Cursor.scan_include hrest
  have hfresh := (Cursor.scan_regular hopens.solid).fresh
  have hline := hopens.line.of_suffix r.cursor.atToken.bare.scan_suffix
  rw [hscan] at hfresh hline
  generalize (r.cursor.atToken.bare.skip 1).skipWhile Byte.isWord = c at hscan hword hfresh hline
  have hquote := Cursor.skipBlanks_file hword
  have hopens' : (c.within r.cursor.atToken.frame).Opens c.skipBlanks _ :=
    Cursor.opens_within hfresh hline (by simp [hquote])
  obtain ⟨d, hscan', hfresh', hrest'⟩ := Cursor.scan_file hfile hquotable hquote
  have hnext := Parser.next_of_opens hopens hscan rfl
  have hnext' := Parser.next_of_opens
    (r := { r with cursor := c.within r.cursor.atToken.frame }) hopens' hscan' rfl
  obtain ⟨r', -, hend, hscopes, hended⟩ := Statement.ended_of_blank
    (r := { r with cursor := d.within r.cursor.atToken.frame })
    (hfresh'.trans hopens'.fresh) (by simp [hrest', Byte.OneLine])
    (Cursor.skipBlanks_rest_of_nil hrest') rfl
  have hparse : Statement.parse context r = .ok (.includeFile (Utf8.decode file)) r' := by
    rw [Statement.parse_of_next hnext fun h => by cases h]
    show Statement.parseInclude { r with cursor := c.within r.cursor.atToken.frame } = _
    unfold Statement.parseInclude
    rw [bind_of_ok hnext']
    show (Statement.endOfStatement >>= fun _ => pure (Statement.includeFile (Utf8.decode file)))
      { r with cursor := d.within r.cursor.atToken.frame } = _
    rw [bind_of_ok hend]
    rfl
  have hsource : r'.source = r.source := by
    have hsource := Statement.parse_source context r
    rwa [Parser.after, hparse] at hsource
  obtain ⟨source, cursor, scopes⟩ := r'
  cases hscopes
  cases hsource
  exact ⟨cursor, hparse, hended.cleared.fit, hended.cleared.agenda⟩

theorem included?_of_read (hread : disk.read (Utf8.decode file) = .ok text) (source : Source) :
    included? disk source (Utf8.decode file) =
      some ⟨Utf8.decode file, some (Utf8.decode file), text⟩ := by
  rw [included?, findInclude, if_pos (Disk.isFile_iff.mpr ⟨text, hread⟩), Option.bind_some, openSource, hread]
  rfl

theorem ne_nil_of_read (hread : disk.read (Utf8.decode file) = .ok text) : file ≠ [] := by
  rintro rfl
  cases hread

/-- The line with the directive includes the file. -/
theorem includes_includeLine (hread : disk.read (Utf8.decode file) = .ok text)
    (hquotable : ∀ b ∈ file, Byte.isQuotable b = true) :
    Includes disk (1, Byte.includeLine file)
      ⟨Utf8.decode file, some (Utf8.decode file), text⟩ := by
  intro context r rest hfit hagenda _
  obtain ⟨cursor, hparse, hcursor⟩ :=
    parse_includeLine context (ne_nil_of_read hread) hquotable hfit hagenda
  exact ⟨Utf8.decode file, cursor, hparse, included?_of_read hread r.source, hcursor⟩

end Assembly

/-! ### Passes -/

/-- A text with a piece between what stands in front of it and what follows on the next line. -/
def Byte.between (before after piece : List UInt8) : List UInt8 :=
  before ++ piece ++ 0x0a :: after

namespace Session

variable {disk : Disk} {before file text : List UInt8}
  (hread : disk.read (Utf8.decode file) = .ok text)
  (hquotable : ∀ b ∈ file, Byte.isQuotable b = true)
  (hfree : (Cursor.ofBytes text).IncludeFree) (hbefore : before = [] ∨ before.getLast? = some 0x0a)
  (name : String) (after : List UInt8)

include hread hquotable hfree hbefore

/-- A pass over one text ends like a pass over the other. -/
theorem runPass_spliced (s : Session) (pass : Pass) (image : Option Emitter) :
    SameOutcome Diagnostic.SameCause (Assembly.Alike Eq Diagnostic.SameCause)
      (s.runPass pass disk ⟨name, none, Byte.between before after (Byte.includeLine file)⟩ image)
      (s.runPass pass disk ⟨name, none, Byte.between before after text⟩ image) := by
  have hincludes : Includes (s.setting pass disk).disk _ _ := includes_includeLine hread hquotable
  have hagenda : ∀ piece, (Cursor.ofBytes (Byte.between before after piece)).agenda =
      Byte.agenda before ++ (Byte.agenda piece ++ Byte.agenda after) := by
    intro piece
    rw [Cursor.agenda_of_fresh rfl rfl, ← Byte.agenda_append piece after,
      ← Byte.agenda_append_of_ended hbefore, ← List.append_assoc]
    rfl
  have halike : Assembly.Alike Eq Diagnostic.SameCause
      (s.initial ⟨name, none, Byte.between before after (Byte.includeLine file)⟩ image)
      (s.initial ⟨name, none, Byte.between before after text⟩ image) :=
    ⟨⟨rfl, rfl, rfl, rfl, rfl, rfl, rfl⟩, .nil⟩
  have hfiles : Spliced (1, Byte.includeLine file)
      ⟨Utf8.decode file, some (Utf8.decode file), text⟩ (Byte.agenda after)
      (.start ⟨name, none, Byte.between before after (Byte.includeLine file)⟩)
      (.start ⟨name, none, Byte.between before after text⟩) := by
    refine .beside [] rfl rfl rfl rfl (.inl ⟨Cursor.fit_of_fresh rfl, Cursor.fit_of_fresh rfl,
      Byte.agenda before, ?_, hagenda text⟩)
    refine (hagenda (Byte.includeLine file)).trans ?_
    rw [Byte.agenda_includeLine hquotable]
    rfl
  exact runPass_alike (run_spliced hincludes hfree halike hfiles)

theorem assemble_spliced (job : Job) :
    SameOutcome Diagnostic.SameCause Eq
      (assemble disk (.text name (Byte.between before after (Byte.includeLine file))) job)
      (assemble disk (.text name (Byte.between before after text)) job) :=
  assemble_alike (.ok (runPass_spliced hread hquotable hfree hbefore name after)) job

omit hread hquotable hfree hbefore

/-- A text with a line that includes a file is assembled like the text with the contents of the file
in place of the line, if the contents include nothing.  Both runs give the same report, image and
names, or they fail with the same errors, places aside. -/
theorem assemble_include (disk : Disk) (name : String) (job : Job)
    (before after file text : List UInt8)
    (hbefore : before = [] ∨ before.getLast? = some 0x0a)
    (hquotable : ∀ b ∈ file, Byte.isQuotable b = true)
    (hread : disk.read (Utf8.decode file) = .ok text)
    (hfree : (Cursor.ofBytes text).IncludeFree) :
    (∃ report done,
      assemble disk (.text name (before ++ Byte.includeLine file ++ 0x0a :: after)) job =
        .ok report done ∧
      assemble disk (.text name (before ++ text ++ 0x0a :: after)) job = .ok report done) ∨
    ∃ failure failure' done,
      assemble disk (.text name (before ++ Byte.includeLine file ++ 0x0a :: after)) job =
        .error failure done ∧
      assemble disk (.text name (before ++ text ++ 0x0a :: after)) job = .error failure' done ∧
      failure.Alike Diagnostic.SameCause failure' := by
  have hsame := assemble_spliced hread hquotable hfree hbefore name after job
  unfold Byte.between at hsame
  generalize assemble disk (.text name (before ++ Byte.includeLine file ++ 0x0a :: after)) job = x
    at hsame ⊢
  generalize assemble disk (.text name (before ++ text ++ 0x0a :: after)) job = y at hsame ⊢
  cases hsame with
  | @ok report s t states => exact .inl ⟨report, s, rfl, states ▸ rfl⟩
  | @failed f g s t failures states => exact .inr ⟨f, g, s, rfl, states ▸ rfl, failures⟩

/-- A file that ends in a quote that is not closed, in an open scope. -/
def ragged : List UInt8 := Byte.ofChars "loop: inx\n .proc inner\n bne loop\n .byte \"end".toList

def raggedFile : List UInt8 := Byte.ofChars "a/ragged".toList

def raggedDisk : Disk := (Disk.empty []).addFile "a/ragged" ragged

def raggedBefore : List UInt8 := Byte.ofChars " ldx #$80\n".toList

def raggedAfter : List UInt8 := Byte.ofChars " .endproc\n rts".toList

theorem assemble_include_ragged :
    ∃ failure failure' done,
      assemble raggedDisk (.text "main"
        (raggedBefore ++ Byte.includeLine raggedFile ++ 0x0a :: raggedAfter)) Job.plain =
          .error failure done ∧
      assemble raggedDisk (.text "main" (raggedBefore ++ ragged ++ 0x0a :: raggedAfter)) Job.plain =
        .error failure' done ∧
      failure.Alike Diagnostic.SameCause failure' := by
  have hlast : raggedBefore = [] ∨ raggedBefore.getLast? = some 0x0a := by decide
  have hquotable : ∀ b ∈ raggedFile, Byte.isQuotable b = true := by decide +kernel
  have hread : raggedDisk.read (Utf8.decode raggedFile) = .ok ragged := by decide +kernel
  have hfree : (Cursor.ofBytes ragged).IncludeFree :=
    Cursor.includeFree_of_count (n := 12) (by decide +kernel) (by decide +kernel)
  have hnoted : (walk (Job.plain.session.reset.setting .first raggedDisk) 14
      (Job.plain.session.reset.initial ⟨"main", none,
        raggedBefore ++ Byte.includeLine raggedFile ++ 0x0a :: raggedAfter⟩ none)).map
      (fun x => noted x.2) = some [.scan .unterminatedQuote] := by
    decide +kernel
  rcases assemble_include raggedDisk "main" Job.plain raggedBefore raggedAfter raggedFile ragged
    hlast hquotable hread hfree with ⟨report, done, hok, -⟩ | hfails
  · exact absurd hok (assemble_ne_ok_of_noted hnoted nofun)
  · exact hfails

end Session

end Assembler6502
