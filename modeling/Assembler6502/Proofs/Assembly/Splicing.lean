/-
A file that is included reads like its text.

Two passes run side by side: in one of them a line includes a file, in the
other the text of the file stands in place of the line.  They carry out the same
statements in the same states, so they end alike.

* **`Cursor.Share`** — two cursors with the same lines ahead, and then each its
  own;
* **`parse_share`** — the next statement is the same;
* **`Spliced`** — the open files of the two passes;
* **`step_spliced`** — a step of both passes, or one of the first pass alone
  where it opens or closes the file;
* **`run_spliced`** — both passes end alike.

Design notes.  Places in the source are not the same in both passes, so errors
are compared by their causes.  Files that are included elsewhere are read by
both passes alike.
-/
import Assembler6502.Proofs.Assembly.Alike
import Assembler6502.Proofs.Assembly.OpenFiles
import Assembler6502.Proofs.Assembly.Visits
import Assembler6502.Proofs.Token.Agenda
import Assembler6502.Proofs.Token.Sequence

namespace Assembler6502

/-- Two cursors have lines ahead in common, and then each has its own. -/
def Cursor.Share (own own' : List (Nat × List UInt8)) (c c' : Cursor) : Prop :=
  c.Fit ∧ c'.Fit ∧ ∃ common, c.agenda = common ++ own ∧ c'.agenda = common ++ own'

theorem Cursor.agenda_eq_cons {c : Cursor} {line : Nat × List UInt8}
    {rest : List (Nat × List UInt8)} (h : c.agenda = line :: rest) :
    c.atToken.rest ≠ [] ∧ line = (c.atToken.position.column, c.atToken.bare.rest) ∧
      rest = Byte.agenda (Byte.dropLineEnd c.atToken.frame.behind) := by
  unfold agenda at h
  split at h
  · cases h
  · next htoken =>
    obtain ⟨hline, hrest⟩ := List.cons.inj h
    exact ⟨htoken, hline.symm, hrest.symm⟩

namespace Statement

/-- Readings `u` and `u'`, reached from `r` and `r'`, that have the same names and share lines. -/
structure Shared (own own' : List (Nat × List UInt8)) (r r' u u' : Reading) : Prop where
  scopes : u.scopes = u'.scopes
  share : u.cursor.Share own own' u'.cursor
  source : u.source = r.source
  source' : u'.source = r'.source
  includeFree : r.cursor.IncludeFree → u.cursor.IncludeFree

/-- A line that is ahead of both is read alike. -/
theorem parse_share {context : Context} {r r' : Reading} {line : Nat × List UInt8}
    {rest rest' : List (Nat × List UInt8)} (hscopes : r.scopes = r'.scopes) (hfit : r.cursor.Fit)
    (hfit' : r'.cursor.Fit) (h : r.cursor.agenda = line :: rest)
    (h' : r'.cursor.agenda = line :: rest') :
    Both Diagnostic.SameCause (Shared rest rest' r r') (parse context r) (parse context r') := by
  obtain ⟨htoken, rfl, rfl⟩ := Cursor.agenda_eq_cons h
  obtain ⟨htoken', hline, rfl⟩ := Cursor.agenda_eq_cons h'
  obtain ⟨hcolumn, htext⟩ := Prod.mk.inj hline
  have hopening : Opening r.cursor.atToken.frame r'.cursor.atToken.frame
      r.cursor.atToken.bare.rest.length r r' :=
    ⟨hscopes, r.cursor.atToken.bare, Nat.le_refl _,
      Cursor.opens_of_fit hfit htoken rfl rfl rfl,
      Cursor.opens_of_fit hfit' htoken' rfl htext hcolumn⟩
  have hmatched : Matched _ _ _ (parse context r) (parse context r') := parse_inStep hopening
  have hsource := parse_source context r
  have hsource' := parse_source context r'
  obtain ⟨k, hk⟩ := Parser.exists_nth (p := parse context) parse_grammatical r
  have hfree : r.cursor.IncludeFree → ((parse context).after r).cursor.IncludeFree := by
    intro hr
    rw [hk]
    exact hr.nth k
  unfold Parser.after at hsource hsource' hfree
  generalize parse context r = x at hmatched hsource hfree
  generalize parse context r' = y at hmatched hsource'
  cases hmatched with
  | @ok a b u u' result =>
    obtain ⟨hending, rfl, hbehind⟩ := result
    have hhalted : Halted r.cursor.atToken.frame r'.cursor.atToken.frame u u' := by
      rcases hbehind with ⟨-, honLine⟩ | hahead | hended
      · exact honLine.halted
      · exact hahead.halted
      · exact hended.halted
    by_cases hundefined : a = .undefined
    · subst hundefined
      have hleft := hhalted.left.recover.cleared
      have hright := hhalted.right.recover.cleared
      exact .undefined (fun error => rfl) ⟨hhalted.scopes,
        ⟨hleft.fit, hright.fit, [], hleft.agenda, hright.agenda⟩, hsource, hsource',
        fun hr => hhalted.left.includeFree_recover (hfree hr)⟩
    · refine .read hending hundefined ⟨hhalted.scopes, ?_, hsource, hsource', hfree⟩
      rcases hbehind with ⟨habsurd, -⟩ | hahead | ⟨-, hleft, hright⟩
      · exact absurd habsurd hundefined
      · -- the next token is on the same line
        obtain ⟨-, d, hfresh, hd, -, hsolid, hu, hu'⟩ := hahead
        refine ⟨hu ▸ Cursor.fit_within hfresh hd hsolid, hu' ▸ Cursor.fit_within hfresh hd hsolid,
          [(d.skipBlanks.position.column, d.skipBlanks.rest)], ?_, ?_⟩
        · rw [hu]
          exact Cursor.agenda_within hfresh hd hsolid
        · rw [hu']
          exact Cursor.agenda_within hfresh hd hsolid
      · exact ⟨hleft.cleared.fit, hright.cleared.fit, [], hleft.cleared.agenda,
          hright.cleared.agenda⟩
  | error cause left right place =>
    have hleft := place.left.recover.cleared
    have hright := place.right.recover.cleared
    exact .failed cause ⟨place.scopes, ⟨hleft.fit, hright.fit, [], hleft.agenda, hright.agenda⟩,
      hsource, hsource', fun hr => place.left.includeFree_recover (hfree hr)⟩

end Statement

namespace Assembly

variable {setting : Setting} {s t u v : State} {F : OpenFiles → OpenFiles → Prop}

/-! ### Two passes -/

/-- A line includes a source: whatever reads the line includes it and goes on behind the line. -/
def Includes (disk : Disk) (line : Nat × List UInt8) (source : Source) : Prop :=
  ∀ (context : Context) (r : Reading) (rest : List (Nat × List UInt8)), r.cursor.Fit →
    r.cursor.agenda = line :: rest → r.source.path = none →
    ∃ name cursor, Statement.parse context r = .ok (.includeFile name) { r with cursor } ∧
      included? disk r.source name = some source ∧ cursor.Fit ∧ cursor.agenda = rest

/-- The open files of two passes.  In the first of them a line includes a source, in the second the
text of the source stands in its place.  `rest` is what follows behind it in both. -/
inductive Spliced (line : Nat × List UInt8) (source : Source) (rest : List (Nat × List UInt8))
    (files files' : OpenFiles) : Prop where
  /-- Both are outside of the text, in the main file or in the same other files. -/
  | beside (tops : List Reader) {main main' : Reader} (left : files.readers = tops ++ [main])
      (right : files'.readers = tops ++ [main']) (path : main.source.path = none)
      (path' : main'.source.path = none)
      (ahead : main.cursor.Share (line :: rest) (Byte.agenda source.bytes ++ rest) main'.cursor ∨
        main.cursor.Share [] [] main'.cursor)
  /-- The first is in the source, the second in its text. -/
  | inside {reader main main' : Reader} (left : files.readers = [reader, main])
      (right : files'.readers = [main']) (path : main.source.path = none)
      (path' : main'.source.path = none) (includeFree : reader.cursor.IncludeFree)
      (ahead : reader.cursor.Share [] rest main'.cursor) (fit : main.cursor.Fit)
      (agenda : main.cursor.agenda = rest)

variable {line : Nat × List UInt8} {source : Source} {rest own own' : List (Nat × List UInt8)}

/-- Lines in common may be counted to what each has of its own. -/
theorem share_of_append {common : List (Nat × List UInt8)} {c c' : Cursor}
    (h : c.Share (common ++ own) (common ++ own') c') : c.Share own own' c' := by
  obtain ⟨hfit, hfit', front, hc, hc'⟩ := h
  exact ⟨hfit, hfit', front ++ common, by rw [hc, List.append_assoc],
    by rw [hc', List.append_assoc]⟩

theorem readers_eq_cons {files : OpenFiles} {reader : Reader} {outer : List Reader}
    (h : files.readers = reader :: outer) : files.current = reader ∧ files.outer = outer :=
  List.cons.inj h

theorem endFile_of_last (setting : Setting) (houter : s.files.outer = []) :
    endFile setting s = .finished (s.finish setting) := by
  have hpop : s.files.pop? = none := by
    unfold OpenFiles.pop?
    split
    · rfl
    · next hcons =>
      rw [houter] at hcons
      cases hcons
  unfold endFile
  rw [hpop]

theorem endFile_of_outer (setting : Setting) (houter : s.files.outer ≠ []) :
    ∃ files, endFile setting s = .next { s with files } ∧ files.readers = s.files.outer := by
  have hpop : ∃ files, s.files.pop? = some files ∧ files.readers = s.files.outer := by
    unfold OpenFiles.pop?
    split
    · contradiction
    · next hcons => exact ⟨_, rfl, hcons.symm⟩
  obtain ⟨files, hpop, hreaders⟩ := hpop
  refine ⟨files, ?_, hreaders⟩
  unfold endFile
  rw [hpop]

/-- A step in a file that both passes read. -/
theorem step_top {tops : List Reader} {top main main' : Reader}
    (h : Alike Eq Diagnostic.SameCause s t)
    (hs : s.files.readers = top :: (tops ++ [main]))
    (ht : t.files.readers = top :: (tops ++ [main']))
    (hpath : main.source.path = none) (hpath' : main'.source.path = none)
    (hahead : main.cursor.Share (line :: rest) (Byte.agenda source.bytes ++ rest) main'.cursor ∨
      main.cursor.Share [] [] main'.cursor) :
    StepAlike Eq Diagnostic.SameCause (Spliced line source rest) (step setting s)
      (step setting t) := by
  obtain ⟨hcurrent, houter⟩ := readers_eq_cons hs
  obtain ⟨hcurrent', houter'⟩ := readers_eq_cons ht
  refine step_same emitsAlike_eq id (fun d => rfl) h (hcurrent.trans hcurrent'.symm) ?_ ?_ ?_ ?_
  · rw [houter, houter', List.length_append, List.length_append]
    rfl
  · intro r
    exact .beside (⟨r.source, r.cursor⟩ :: tops) (congrArg (_ :: ·) houter)
      (congrArg (_ :: ·) houter') hpath hpath' hahead
  · intro r reader _ _
    exact .beside (reader :: ⟨r.source, r.cursor⟩ :: tops)
      (congrArg (fun outer => reader :: ⟨r.source, r.cursor⟩ :: outer) houter)
      (congrArg (fun outer => reader :: ⟨r.source, r.cursor⟩ :: outer) houter') hpath hpath' hahead
  · -- both passes close the file
    intro r
    have hne : (s.resume r).files.outer ≠ [] := by
      show s.files.outer ≠ []
      simp [houter]
    have hne' : (t.resume r).files.outer ≠ [] := by
      show t.files.outer ≠ []
      simp [houter']
    obtain ⟨files, hend, hreaders⟩ := endFile_of_outer setting hne
    obtain ⟨files', hend', hreaders'⟩ := endFile_of_outer setting hne'
    rw [hend, hend']
    exact .next ((h.resume rfl).withFiles files files') (.beside tops (hreaders.trans houter)
      (hreaders'.trans houter') hpath hpath' hahead)

/-- A line that is ahead in both passes is read alike. -/
theorem parse_alike {common : List (Nat × List UInt8)} {l : Nat × List UInt8}
    (h : Alike Eq Diagnostic.SameCause s t)
    (hfit : s.files.current.cursor.Fit) (hfit' : t.files.current.cursor.Fit)
    (hagenda : s.files.current.cursor.agenda = l :: (common ++ own))
    (hagenda' : t.files.current.cursor.agenda = l :: (common ++ own')) :
    Statement.Both Diagnostic.SameCause
      (Statement.Shared (common ++ own) (common ++ own') s.reading t.reading)
      (Statement.parse (s.context setting) s.reading)
      (Statement.parse (t.context setting) t.reading) := by
  rw [h.context]
  exact Statement.parse_share h.twin.scopes hfit hfit' hagenda hagenda'

/-- A step in the main files, where both have a line ahead. -/
theorem step_main {common : List (Nat × List UInt8)} {l : Nat × List UInt8} {main main' : Reader}
    (h : Alike Eq Diagnostic.SameCause s t) (hs : s.files.readers = [main])
    (ht : t.files.readers = [main'])
    (hpath : main.source.path = none) (hpath' : main'.source.path = none)
    (hshape : ∀ {c c' : Cursor}, c.Share own own' c' →
      c.Share (line :: rest) (Byte.agenda source.bytes ++ rest) c' ∨ c.Share [] [] c')
    (hfit : main.cursor.Fit) (hfit' : main'.cursor.Fit)
    (hagenda : main.cursor.agenda = l :: (common ++ own))
    (hagenda' : main'.cursor.agenda = l :: (common ++ own')) :
    StepAlike Eq Diagnostic.SameCause (Spliced line source rest) (step setting s)
      (step setting t) := by
  obtain ⟨rfl, houter⟩ := readers_eq_cons hs
  obtain ⟨rfl, houter'⟩ := readers_eq_cons ht
  have hbeside : ∀ {r r' : Reading},
      Statement.Shared (common ++ own) (common ++ own') s.reading t.reading r r' →
      ∀ (tops : List Reader) {files files' : OpenFiles},
        files.readers = tops ++ [⟨r.source, r.cursor⟩] →
        files'.readers = tops ++ [⟨r'.source, r'.cursor⟩] →
        Spliced line source rest files files' := by
    intro r r' hshared tops files files' hfiles hfiles'
    exact .beside tops hfiles hfiles' (hshared.source ▸ hpath) (hshared.source' ▸ hpath')
      (hshape (share_of_append hshared.share))
  refine step_alike id h (parse_alike h hfit hfit' hagenda hagenda')
    (fun r r' hshared => hshared.scopes) ?_ ?_
  · intro r r' hshared
    exact hbeside hshared [] (congrArg (_ :: ·) houter) (congrArg (_ :: ·) houter')
  · intro statement r r' _ hshared
    have hresume : Alike Eq Diagnostic.SameCause (s.resume r) (t.resume r') :=
      h.resume hshared.scopes
    have hfiles : Spliced line source rest (s.resume r).files (t.resume r').files :=
      hbeside hshared [] (congrArg (_ :: ·) houter) (congrArg (_ :: ·) houter')
    by_cases hinclude : ∃ name, statement = .includeFile name
    · obtain ⟨name, rfl⟩ := hinclude
      refine include_alike hresume (fun error => rfl) (included?_rel setting.disk name ?_) ?_ hfiles
        ?_
      · show r.source.path = r'.source.path
        rw [hshared.source, hshared.source']
        exact hpath.trans hpath'.symm
      · show s.files.outer.length = t.files.outer.length
        rw [houter, houter']
      · rintro found _ hs' ht' rfl
        exact hbeside hshared [.start found] (congrArg (fun outer => _ :: _ :: outer) houter)
          (congrArg (fun outer => _ :: _ :: outer) houter')
    · exact carryOut_alike emitsAlike_eq id rfl (fun name hname => hinclude ⟨name, hname⟩) hresume
        (fun error => rfl) hfiles

/-- A step in the source and in its text. -/
theorem step_inside {common : List (Nat × List UInt8)} {l : Nat × List UInt8}
    {reader main main' : Reader} (h : Alike Eq Diagnostic.SameCause s t)
    (hs : s.files.readers = [reader, main])
    (ht : t.files.readers = [main']) (hpath : main.source.path = none)
    (hpath' : main'.source.path = none) (hfree : reader.cursor.IncludeFree)
    (hmain : main.cursor.Fit) (hrest : main.cursor.agenda = rest)
    (hfit : reader.cursor.Fit) (hfit' : main'.cursor.Fit)
    (hagenda : reader.cursor.agenda = l :: (common ++ []))
    (hagenda' : main'.cursor.agenda = l :: (common ++ rest)) :
    StepAlike Eq Diagnostic.SameCause (Spliced line source rest) (step setting s)
      (step setting t) := by
  obtain ⟨rfl, houter⟩ := readers_eq_cons hs
  obtain ⟨rfl, houter'⟩ := readers_eq_cons ht
  have hinside : ∀ r r',
      Statement.Shared (common ++ []) (common ++ rest) s.reading t.reading r r' →
      Spliced line source rest (s.resume r).files (t.resume r').files := by
    intro r r' hshared
    have hpath'' : r'.source.path = none := by
      rw [hshared.source']
      exact hpath'
    exact .inside (congrArg (_ :: ·) houter) (congrArg (_ :: ·) houter') hpath hpath''
      (hshared.includeFree hfree) (share_of_append hshared.share) hmain hrest
  refine step_alike id h (parse_alike h hfit hfit' hagenda hagenda')
    (fun r r' hshared => hshared.scopes) hinside ?_
  intro statement r r' hparse hshared
  refine carryOut_alike emitsAlike_eq id rfl ?_ (h.resume hshared.scopes) (fun error => rfl)
    (hinside r r' hshared)
  rintro name rfl
  exact Statement.parse_ne_includeFile (r := s.reading) hfree hparse

/-- Where the first pass alone comes to the line that includes the source, it opens the source. -/
theorem step_opens (hincludes : Includes setting.disk line source)
    (hfree : (Cursor.ofBytes source.bytes).IncludeFree) {main main' : Reader}
    (h : Alike Eq Diagnostic.SameCause s t)
    (hs : s.files.readers = [main]) (ht : t.files.readers = [main'])
    (hpath : main.source.path = none) (hpath' : main'.source.path = none)
    (hfit : main.cursor.Fit) (hfit' : main'.cursor.Fit)
    (hagenda : main.cursor.agenda = line :: rest)
    (hagenda' : main'.cursor.agenda = Byte.agenda source.bytes ++ rest) :
    ∃ u, step setting s = .next u ∧ Alike Eq Diagnostic.SameCause u t ∧
      Spliced line source rest u.files t.files := by
  obtain ⟨rfl, houter⟩ := readers_eq_cons hs
  obtain ⟨name, cursor, hparse, hsome, hcursor, hrest⟩ :=
    hincludes (s.context setting) s.reading rest hfit hagenda hpath
  have hroom : (s.resume { s.reading with cursor }).files.outer.length + 1 < includeLimit := by
    show s.files.outer.length + 1 < includeLimit
    rw [houter]
    decide
  have hstep : step setting s = carryOut setting (.includeFile name)
      (s.resume { s.reading with cursor }) := by
    unfold step
    rw [hparse]
  have hexecute : execute setting (.includeFile name) (s.resume { s.reading with cursor }) = _ :=
    executeInclude_of_some hroom hsome
  refine ⟨{ s.resume { s.reading with cursor } with
    files := (s.resume { s.reading with cursor }).files.push (.start source) hroom }, ?_, ?_, ?_⟩
  · rw [hstep, carryOut, hexecute]
  · exact ⟨⟨h.twin.scopes, h.twin.anonymous, h.twin.address, h.twin.start, h.twin.placed,
      h.twin.assigned, h.twin.image⟩, h.errors⟩
  · have hstart : (Reader.start source).cursor.agenda = Byte.agenda source.bytes :=
      Cursor.agenda_of_fresh rfl rfl
    have hreaders :
        ((s.resume { s.reading with cursor }).files.push (.start source) hroom).readers =
          [.start source, ⟨s.files.current.source, cursor⟩] := by
      show Reader.start source :: (⟨s.files.current.source, cursor⟩ : Reader) :: s.files.outer = _
      rw [houter]
    refine .inside hreaders ht hpath hpath' hfree
      ⟨Cursor.fit_of_fresh rfl, hfit', Byte.agenda source.bytes, ?_, hagenda'⟩ hcursor hrest
    rw [hstart, List.append_nil]

/-- Where the source has ended, the first pass alone closes it. -/
theorem step_closes {reader main main' : Reader} (h : Alike Eq Diagnostic.SameCause s t)
    (hs : s.files.readers = [reader, main]) (ht : t.files.readers = [main'])
    (hpath : main.source.path = none) (hpath' : main'.source.path = none)
    (hmain : main.cursor.Fit) (hrest : main.cursor.agenda = rest) (hfit' : main'.cursor.Fit)
    (hagenda : reader.cursor.agenda = []) (hagenda' : main'.cursor.agenda = rest) :
    ∃ u, step setting s = .next u ∧ Alike Eq Diagnostic.SameCause u t ∧
      Spliced line source rest u.files t.files := by
  obtain ⟨rfl, houter⟩ := readers_eq_cons hs
  have hparse : Statement.parse (s.context setting) s.reading = .ok .endOfInput _ :=
    Statement.parse_of_ended (r := s.reading) (Cursor.agenda_eq_nil_iff.mp hagenda)
  have hne : (s.resume { s.reading with cursor := s.reading.cursor.atToken }).files.outer ≠ [] := by
    show s.files.outer ≠ []
    simp [houter]
  obtain ⟨files, hend, hreaders⟩ := endFile_of_outer setting hne
  refine ⟨_, (step_of_endOfInput hparse).trans hend, ?_, ?_⟩
  · exact ⟨⟨h.twin.scopes, h.twin.anonymous, h.twin.address, h.twin.start, h.twin.placed,
      h.twin.assigned, h.twin.image⟩, h.errors⟩
  · exact .beside [] (hreaders.trans houter) ht hpath hpath'
      (.inr ⟨hmain, hfit', rest, by rw [hrest, List.append_nil], by rw [hagenda', List.append_nil]⟩)

/-- At the end of both main files both passes end. -/
theorem step_ends {main main' : Reader} (h : Alike Eq Diagnostic.SameCause s t)
    (hs : s.files.readers = [main])
    (ht : t.files.readers = [main']) (hagenda : main.cursor.agenda = [])
    (hagenda' : main'.cursor.agenda = []) :
    StepAlike Eq Diagnostic.SameCause F (step setting s) (step setting t) := by
  obtain ⟨rfl, houter⟩ := readers_eq_cons hs
  obtain ⟨rfl, houter'⟩ := readers_eq_cons ht
  have hparse : Statement.parse (s.context setting) s.reading = .ok .endOfInput _ :=
    Statement.parse_of_ended (r := s.reading) (Cursor.agenda_eq_nil_iff.mp hagenda)
  have hparse' : Statement.parse (t.context setting) t.reading = .ok .endOfInput _ :=
    Statement.parse_of_ended (r := t.reading) (Cursor.agenda_eq_nil_iff.mp hagenda')
  have hlast : endFile setting (s.resume { s.reading with cursor := s.reading.cursor.atToken }) =
      _ := endFile_of_last setting houter
  have hlast' : endFile setting (t.resume { t.reading with cursor := t.reading.cursor.atToken }) =
      _ := endFile_of_last setting houter'
  rw [step_of_endOfInput hparse, step_of_endOfInput hparse', hlast, hlast']
  exact .finished ((h.resume h.twin.scopes).finish fun error => rfl)

/-- Both passes take a step and stay alike, or the first opens or closes the source. -/
theorem step_spliced (hincludes : Includes setting.disk line source)
    (hfree : (Cursor.ofBytes source.bytes).IncludeFree) (h : Alike Eq Diagnostic.SameCause s t)
    (hfiles : Spliced line source rest s.files t.files) :
    StepAlike Eq Diagnostic.SameCause (Spliced line source rest) (step setting s) (step setting t) ∨
      ∃ u, step setting s = .next u ∧ Alike Eq Diagnostic.SameCause u t ∧
      Spliced line source rest u.files t.files := by
  cases hfiles with
  | beside tops left right path path' ahead =>
    cases tops with
    | cons top tops => exact .inl (step_top h left right path path' ahead)
    | nil =>
      rcases ahead with ⟨hfit, hfit', common, hagenda, hagenda'⟩ |
        ⟨hfit, hfit', common, hagenda, hagenda'⟩
      · cases common with
        | nil =>
          exact .inr (step_opens hincludes hfree h left right path path' hfit hfit' hagenda
            hagenda')
        | cons l common =>
          exact .inl (step_main h left right path path' .inl hfit hfit' hagenda hagenda')
      · cases common with
        | nil => exact .inl (step_ends h left right hagenda hagenda')
        | cons l common =>
          exact .inl (step_main h left right path path' .inr hfit hfit' hagenda hagenda')
  | inside left right path path' includeFree ahead fit agenda =>
    obtain ⟨hfit, hfit', common, hagenda, hagenda'⟩ := ahead
    cases common with
    | nil => exact .inr (step_closes h left right path path' fit agenda hfit' hagenda hagenda')
    | cons l common =>
      exact .inl (step_inside h left right path path' includeFree fit agenda hfit hfit' hagenda
        hagenda')

/-- Both passes end alike. -/
theorem run_spliced (hincludes : Includes setting.disk line source)
    (hfree : (Cursor.ofBytes source.bytes).IncludeFree) (h : Alike Eq Diagnostic.SameCause s t)
    (hfiles : Spliced line source rest s.files t.files) :
    EndAlike Eq Diagnostic.SameCause (run setting s) (run setting t) := by
  -- the first pass takes every step, the second one waits at the ends of the source
  fun_induction run setting s generalizing t with
  | case1 s u hstep ih =>
    rcases step_spliced hincludes hfree h hfiles with halike | ⟨v, hv, hnext, hnext'⟩
    · rw [hstep] at halike
      generalize hx : step setting t = x at halike
      cases halike with
      | next alike files =>
        rw [run_of_next hx]
        exact ih alike files
    · rw [hstep] at hv
      cases hv
      exact ih hnext hnext'
  | case2 s u hstep =>
    rcases step_spliced hincludes hfree h hfiles with halike | ⟨v, hv, -⟩
    · rw [hstep] at halike
      generalize hx : step setting t = x at halike
      cases halike with
      | finished alike =>
        rw [run_of_finished hx]
        exact .ok alike
    · rw [hstep] at hv
      cases hv
  | case3 s fault u hstep =>
    rcases step_spliced hincludes hfree h hfiles with halike | ⟨v, hv, -⟩
    · rw [hstep] at halike
      generalize hx : step setting t = x at halike
      cases halike with
      | stopped fault alike =>
        rw [run_of_stopped hx]
        exact .stopped fault alike
    · rw [hstep] at hv
      cases hv

end Assembly

end Assembler6502
