/-
The listing of the names is a source.

A line of the listing is an assignment to a name.  If a run has opened no scope
and all values are words, its listing can be assembled: nothing is emitted, the
same names have the same values again, and they are listed in the same way.

* **`Session.entryText`** — the line of a name, by its characters;
* **`Statement.parse_entry`** — it is read as the assignment that it says;
* **`Assembly.step_entry`**, **`Assembly.run_entries`** — carrying it out binds
  the name, and a pass over a listing binds all names of it;
* **`Naming.Lists.map`** — other values under the same names are listed in the
  same order;
* **`Session.listing_reads_back`** — the listing of a run, assembled.

Design notes.  Names and digits are read back for different reasons.  A bound
name was read as a name once, and the listing has it in lower case, as it was
kept.  The digits are in upper case here, and are read back by their value, as
those of any numeral.
-/
import Assembler6502.Proofs.Scope.View
import Assembler6502.Proofs.Session.BoundNames
import Assembler6502.Proofs.Session.RoundTrip

namespace Assembler6502

open Assembler6502.Parser

/-! ### Lines -/

theorem Hexadecimal.folded_upperWord (v : Int32) :
    (Byte.ofChars (upperWord v)).map Byte.folded = word v := by
  have hfolded := forall_mem_digits (p := fun c => Byte.folded c.toUpper.toUInt8 == c) (by decide) 4
    v.toUInt32.toNat
  rw [Byte.ofChars, upperWord, List.map_map, List.map_map]
  exact (List.map_congr_left fun c hc => beq_iff_eq.mp (hfolded c hc)).trans (List.map_id _)

/-- In ASCII a text has a byte for each character. -/
theorem Byte.ofString_of_ascii {text : String} (h : ∀ c ∈ text.toList, c.toNat < 0x80) :
    ofString text = ofChars text.toList := by
  have hchar : ∀ c ∈ text.toList, String.utf8EncodeChar c = [c.toUInt8] := by
    intro c hc
    have hlt : c.val.toNat ≤ 0x7f := Nat.le_of_lt_succ (h c hc)
    unfold String.utf8EncodeChar
    simp only [hlt, if_true]
    rfl
  rw [show ofString text = Text.bytes text from rfl, Text.bytes_eq, List.flatMap_congr hchar]
  exact List.flatMap_pure_eq_map _ _

namespace Session

/-- What is behind the name in its line. -/
def valueText (v : Int32) : List Char :=
  ' ' :: '=' :: ' ' :: '$' :: Hexadecimal.upperWord v ++ ['\n']

/-- The line of a name, by its characters. -/
def entryText (entry : String × Definition) : List Char :=
  entry.1.toList ++ valueText entry.2.value

/-- A line that can be read: under the text of a name, with a word. -/
structure Readable (entry : String × Definition) : Prop where
  name : Byte.IsNameText entry.1
  fits : fitsWord entry.2.value = true

theorem toList_listingLine (entry : String × Definition) :
    (listingLine entry).toList = entryText entry := by
  simp [listingLine, entryText, valueText]

theorem Readable.ascii {entry : String × Definition} (h : Readable entry) :
    ∀ c ∈ entryText entry, c.toNat < 0x80 := by
  have hdigits : ∀ c ∈ Hexadecimal.upperWord entry.2.value, c.toNat < 0x80 := by
    intro c hc
    obtain ⟨d, hd, rfl⟩ := List.mem_map.mp hc
    exact of_decide_eq_true (Hexadecimal.forall_mem_digits
      (p := fun c => c.toUpper.toNat < 0x80) (by decide) 4 entry.2.value.toUInt32.toNat d hd)
  have hname : ∀ c ∈ entry.1.toList, c.toNat < 0x80 := fun c hc => (h.name.of_mem hc).2
  simp only [entryText, valueText, List.forall_mem_append, List.forall_mem_cons]
  exact ⟨hname, ⟨by decide, by decide, by decide, by decide, hdigits⟩, by decide, by simp⟩

theorem ofString_listing {s : Session} (h : ∀ e ∈ s.scopes.entries, Readable e) :
    Byte.ofString s.listing = Byte.ofChars (s.scopes.entries.flatMap entryText) := by
  have htext : s.listing.toList = s.scopes.entries.flatMap entryText := by
    rw [listing, String.toList_join, List.flatMap_map]
    exact List.flatMap_congr fun e _ => toList_listingLine e
  rw [Byte.ofString_of_ascii, htext]
  intro c hc
  rw [htext] at hc
  obtain ⟨e, he, hc⟩ := List.mem_flatMap.mp hc
  exact (h e he).ascii c hc

end Session

namespace Statement

variable {entry : String × Definition} {rest : List Char} {r : Reading}

/-- Behind a name that is no label, the rest of its line is read as an assignment. -/
theorem parseNamed_yields (context : Context) {n : Name} (hkind : n.symbol.kind ≠ .label)
    (column : Nat) {v : Int32} (hfits : fitsWord v = true) :
    Yields (parseNamed context n column) ⟨false, Session.valueText v ++ rest⟩
      (.assign n.text v false) ⟨true, rest⟩ := by
  have hends : Point.Ends ('\n' :: rest) := Point.ends_cons (by decide)
  have hassign : Point.Leads ⟨false, Session.valueText v ++ rest⟩ .assign
      ⟨false, ' ' :: '$' :: Hexadecimal.upperWord v ++ '\n' :: rest⟩ := by
    rw [Session.valueText, List.append_assoc]
    exact .space (Point.leads_sign (by decide) (by decide) rfl)
  refine Yields.peek hassign (fun _ => rfl) fun _ => ?_
  rw [if_pos rfl, if_neg hkind]
  refine Yields.next hassign (fun _ => rfl) fun _ => ?_
  have hvalue : Point.Leads ⟨false, '$' :: Hexadecimal.upperWord v ++ '\n' :: rest⟩ (.constant v)
      ⟨false, '\n' :: rest⟩ :=
    Point.leads_long_of_folded hfits (Hexadecimal.folded_upperWord v) hends
  refine Yields.bind (expectValue_yields hvalue.space Point.stops_lineEnd) ?_
  refine Yields.bind (checkWidth_yields hfits _ _) ?_
  exact Yields.bind endOfStatement_yields (Yields.pure _ _)

/-- A line of the listing is read as an assignment, unless the name is a label. -/
theorem parse_entry (context : Context)
    (hcursor : r.cursor.At ⟨true, Session.entryText entry ++ rest⟩)
    (hread : Session.Readable entry)
    (hlabel : ∀ value, r.scopes.lookup entry.1 ≠ some ⟨.label, value⟩) :
    ∃ cursor, parse context r = .ok (.assign entry.1 entry.2.value false)
        ⟨r.source, cursor, (r.scopes.classify ⟨entry.1, false⟩).2⟩ ∧
      cursor.At ⟨true, rest⟩ := by
  obtain ⟨name, kind, value⟩ := entry
  have hname : Byte.IsName (Byte.ofChars name.toList) := hread.name.isName
  have htext : Byte.foldedText (Byte.ofChars name.toList) = name := hread.name.foldedText_eq
  have hrest : r.cursor.rest =
      Byte.ofChars name.toList ++ Byte.ofChars (Session.valueText value ++ rest) := by
    rw [hcursor.rest]
    simp [Byte.ofChars, Session.entryText]
  have htoken : r.cursor.toToken = r.cursor := Cursor.toToken_name hrest hname
  have hends : ∀ b ∈ (Byte.ofChars (Session.valueText value ++ rest)).head?,
      Byte.isWord b = false := by
    rintro _ ⟨⟩
    decide
  have hcolon : (Byte.ofChars (Session.valueText value ++ rest)).head?.any
      (fun b => Byte.char b == ':') = false := rfl
  have hnext := Cursor.next_name (by rw [htoken, hrest]) hname hends
  rw [hcolon, if_neg Bool.false_ne_true, htext, htoken] at hnext
  have hkind : (r.scopes.classify ⟨name, false⟩).1.symbol.kind ≠ .label := by
    rw [ne_eq, Scopes.kind_classify]
    rintro (hcolon | ⟨value, hlookup⟩)
    · cases hcolon
    · exact hlabel value hlookup
  have hbehind : (r.cursor.begin.skip (Byte.ofChars name.toList).length).At
      ⟨false, Session.valueText value ++ rest⟩ :=
    ⟨rfl, (congrArg (List.drop _) hrest).trans List.drop_left⟩
  rw [parse_of_startsWith (.here hnext (by simp))]
  obtain ⟨cursor, hparse, hat⟩ := parseNamed_yields context hkind r.cursor.position.column
    hread.fits ⟨r.source, _, (r.scopes.classify ⟨name, false⟩).2⟩ hbehind
  rw [Scopes.classify_text] at hparse
  exact ⟨cursor, hparse, hat⟩

end Statement

/-! ### Carrying out a line -/

namespace Scopes

/-- No name is bound as a label. -/
def Unlabelled (s : Scopes) : Prop :=
  ∀ scope name value, s.symbolAt scope name ≠ some ⟨.label, value⟩

variable {s : Scopes}

theorem Unlabelled.lookup (h : s.Unlabelled) (name : String) (value : Option Int32) :
    s.lookup name ≠ some ⟨.label, value⟩ := by
  intro hlookup
  obtain ⟨scope, -, hsymbol⟩ := List.exists_of_findSome?_eq_some hlookup
  exact h scope name value hsymbol

theorem Unlabelled.insert (h : s.Unlabelled) (name : String) (value : Option Int32) :
    (s.insert name ⟨.identifier, value⟩).Unlabelled := by
  intro scope other v
  rw [symbolAt_insert]
  split
  · simp
  · exact h scope other v

/-- A name without a colon is not noted as a label. -/
theorem Unlabelled.classify (h : s.Unlabelled) (name : String) :
    (s.classify ⟨name, false⟩).2.Unlabelled := by
  rcases s.classify_cases ⟨name, false⟩ with hsame | ⟨-, hnoted⟩
  · rw [hsame]
    exact h
  · rw [hnoted]
    exact h.insert name none

theorem Unlabelled.foldl_eraseEverywhere (h : s.Unlabelled) (names : List String) :
    (names.foldl eraseEverywhere s).Unlabelled := by
  induction names generalizing s with
  | nil => exact h
  | cons first rest ih =>
    refine ih fun scope name value => ?_
    rw [symbolAt_eraseEverywhere]
    split
    · simp
    · exact h scope name value

end Scopes

/-- The value that the lines of a listing give to a name of a scope. -/
def Session.listed (entries : List (String × Definition)) (scope : List String) (name : String) :
    Option Definition :=
  entries.reverse.findSome? fun entry =>
    if scope = [] ∧ name = entry.1 then some ⟨.identifier, entry.2.value⟩ else none

namespace Assembly

open Assembler6502.Session

/-- The state in front of a listing that ends the only file.  No scope is open, and no name is bound
as a label. -/
structure State.AtEntries (entries : List (String × Definition)) (s : State) : Prop where
  cursor : s.files.current.cursor.At ⟨true, entries.flatMap entryText⟩
  alone : s.files.outer = []
  path : s.scopes.path = []
  unlabelled : s.scopes.Unlabelled

/-- What carrying out the lines of a listing changes, and what it does not. -/
structure State.Binds (pass : Pass) (entries : List (String × Definition)) (s t : State) :
    Prop where
  errors : t.errors = s.errors
  image : t.image = s.image
  address : t.address = s.address
  start : t.start = s.start
  assigned : pass = .first → t.assigned = s.assigned ++ entries.map Prod.fst
  unlabelled : t.scopes.Unlabelled
  values : ∀ scope name, t.scopes.definitionAt scope name =
    (listed entries scope name).or (s.scopes.definitionAt scope name)

variable {pass : Pass} {s t u : State} {entry : String × Definition}
  {entries more : List (String × Definition)}

theorem State.Binds.trans (h : s.Binds pass entries t) (h' : t.Binds pass more u) :
    s.Binds pass (entries ++ more) u where
  errors := h'.errors.trans h.errors
  image := h'.image.trans h.image
  address := h'.address.trans h.address
  start := h'.start.trans h.start
  assigned hpass := by
    rw [h'.assigned hpass, h.assigned hpass, List.map_append, List.append_assoc]
  unlabelled := h'.unlabelled
  values scope name := by
    rw [h'.values, h.values, ← Option.or_assoc, listed, listed, listed, List.reverse_append,
      List.findSome?_append]

/-- An assignment binds its name, and the first pass keeps in mind that it was assigned to. -/
theorem execute_assign (setting : Setting) (name : String) (value : Int32) :
    execute setting (.assign name value false) s = .ok ()
      { s with
        scopes := s.scopes.insert name ⟨.identifier, some value⟩
        assigned := if setting.pass = .first then s.assigned ++ [name] else s.assigned } := by
  by_cases hpass : setting.pass = .first
  · rw [if_pos hpass, execute, executeAssign, if_pos hpass]
    rfl
  · rw [if_neg hpass, execute, executeAssign, if_neg hpass]
    rfl

/-- In front of a line of a listing, a step binds the name of the line. -/
theorem step_entry (setting : Setting) (hs : s.AtEntries (entry :: entries))
    (hread : Readable entry) :
    ∃ u, step setting s = .next u ∧ u.AtEntries entries ∧ s.Binds setting.pass [entry] u := by
  have hcursor : s.reading.cursor.At ⟨true, entryText entry ++ entries.flatMap entryText⟩ :=
    hs.cursor
  obtain ⟨cursor, hparse, hat⟩ := Statement.parse_entry (s.context setting) hcursor hread
    (hs.unlabelled.lookup entry.1)
  have hpath : (s.scopes.classify ⟨entry.1, false⟩).2.path = [] :=
    (Lexeme.bind_path s.scopes (.name ⟨entry.1, false⟩)).trans hs.path
  -- reading the name may note it without a value; the assignment then binds it
  have hunlabelled := (hs.unlabelled.classify entry.1).insert entry.1 (some entry.2.value)
  have hstep : step setting s = .next
      { s.resume ⟨s.reading.source, cursor, (s.scopes.classify ⟨entry.1, false⟩).2⟩ with
        scopes := (s.scopes.classify ⟨entry.1, false⟩).2.insert entry.1
          ⟨.identifier, some entry.2.value⟩
        assigned := if setting.pass = .first then s.assigned ++ [entry.1] else s.assigned } := by
    unfold step
    rw [hparse]
    show carryOut setting (.assign entry.1 entry.2.value false) _ = _
    rw [carryOut, execute_assign]
    rfl
  refine ⟨_, hstep, ⟨hat, hs.alone, hpath, hunlabelled⟩, rfl, rfl, rfl, rfl, ?_, hunlabelled, ?_⟩
  · intro hpass
    exact if_pos hpass
  · intro scope name
    show ((s.scopes.classify ⟨entry.1, false⟩).2.insert entry.1 _).definitionAt scope name = _
    rw [Scopes.definitionAt_insert, Scopes.definitionAt_classify, hpath, listed]
    show _ = Option.or (List.findSome? _ [entry]) _
    rw [List.findSome?_singleton]
    split <;> rfl

/-- A pass over a listing binds all its names, and has no errors. -/
theorem run_entries (setting : Setting) (hs : s.AtEntries entries)
    (hread : ∀ e ∈ entries, Readable e) :
    ∃ t, run setting s = .ok () t ∧ s.Binds setting.pass entries t := by
  -- what is left of the listing stands ahead, and no name has become a label
  induction entries generalizing s with
  | nil =>
    have hclosed : setting.pass = .first → s.scopes.depth = 0 :=
      fun _ => congrArg List.length hs.path
    obtain ⟨cursor, hstep⟩ := step_endOfInput hs.cursor hs.alone hclosed
    refine ⟨_, run_of_finished hstep, rfl, rfl, rfl, rfl, ?_, hs.unlabelled, fun _ _ => rfl⟩
    intro _
    exact (List.append_nil _).symm
  | cons entry rest ih =>
    obtain ⟨u, hstep, hu, hbinds⟩ := step_entry setting hs (hread entry List.mem_cons_self)
    obtain ⟨t, hrun, hbinds'⟩ := ih hu fun e he => hread e (List.mem_cons_of_mem _ he)
    exact ⟨t, (run_of_next hstep).trans hrun, hbinds.trans hbinds'⟩

end Assembly

/-! ### Listed values -/

/-- Other values under the same names are listed in the same order. -/
theorem Naming.Lists.map {m m' : Naming} {entries : List (String × Definition)}
    {g : Definition → Definition} (h : m.Lists entries)
    (hvalues : ∀ path name, m'.definition? path name = (m.definition? path name).map g) :
    m'.Lists (entries.map fun e => (e.1, g e.2)) where
  mem_iff text d := by
    rw [List.mem_map]
    constructor
    · rintro ⟨⟨text', d'⟩, he, heq⟩
      cases heq
      obtain ⟨path, name, hd, rfl⟩ := (h.mem_iff _ _).mp he
      exact ⟨path, name, by rw [hvalues, hd]; rfl, rfl⟩
    · rintro ⟨path, name, hd, rfl⟩
      rw [hvalues] at hd
      obtain ⟨d', hd', rfl⟩ := Option.map_eq_some_iff.mp hd
      exact ⟨(_, d'), (h.mem_iff _ _).mpr ⟨path, name, hd', rfl⟩, rfl⟩
  sorted := List.pairwise_map.mpr h.sorted
  increasing hplain := by
    refine List.pairwise_map.mpr (h.increasing fun path name hvalue => hplain path name ?_)
    rw [hvalues, Option.isSome_map]
    exact hvalue

namespace Scopes

variable {s t : Scopes} {scope : List String} {name : String} {d : Definition}

theorem lists_entries (s : Scopes) : (view.naming s).Lists s.entries :=
  s.covers_definitions.lists s.perm_entries s.pairwise_entries

/-- All values are in the outermost scope, under texts of names. -/
def Flat (s : Scopes) : Prop :=
  ∀ {scope name d}, s.definitionAt scope name = some d → scope = [] ∧ Byte.IsNameText name

theorem Flat.plain (h : s.Flat) : (view.naming s).Plain := by
  intro path name hvalue word hword
  obtain ⟨d, hd⟩ := Option.isSome_iff_exists.mp hvalue
  have hd : s.definitionAt path.reverse name = some d := hd
  obtain rfl : path = [] := List.reverse_eq_nil_iff.mp (h hd).1
  obtain rfl : word = name := List.mem_singleton.mp hword
  exact fun hdot => ((h hd).2.of_mem hdot).1 rfl

theorem Flat.mem_entries_iff (h : s.Flat) :
    (name, d) ∈ s.entries ↔ s.definitionAt [] name = some d := by
  rw [s.lists_entries.mem_iff]
  constructor
  · rintro ⟨path, other, hd, rfl⟩
    have hd : s.definitionAt path.reverse other = some d := hd
    obtain rfl : path = [] := List.reverse_eq_nil_iff.mp (h hd).1
    exact hd
  · intro hd
    exact ⟨[], name, hd, rfl⟩

/-- Other values of the same names are listed in the same way. -/
theorem Flat.entries_map (h : s.Flat) {g : Definition → Definition}
    (hvalues : ∀ scope name, t.definitionAt scope name = (s.definitionAt scope name).map g) :
    t.entries = s.entries.map fun e => (e.1, g e.2) := by
  have ht : t.Flat := by
    intro scope name d hd
    rw [hvalues] at hd
    obtain ⟨d', hd', -⟩ := Option.map_eq_some_iff.mp hd
    exact h hd'
  -- names without dots are listed once each, so that only one list is sorted and complete
  have hlists : (view.naming t).Lists (s.entries.map fun e => (e.1, g e.2)) :=
    Naming.Lists.map (m := view.naming s) s.lists_entries fun path name =>
      hvalues path.reverse name
  exact t.lists_entries.unique ht.plain hlists

/-- The lines of a listing give back what is listed. -/
theorem Flat.listed_entries (h : s.Flat) (scope : List String) (name : String) :
    Session.listed s.entries scope name =
      (s.definitionAt scope name).map fun d => ⟨.identifier, d.value⟩ := by
  cases hlisted : Session.listed s.entries scope name with
  | some d =>
    obtain ⟨e, he, heq⟩ := List.exists_of_findSome?_eq_some hlisted
    split at heq
    · next hsame =>
      obtain ⟨rfl, rfl⟩ := hsame
      cases heq
      rw [h.mem_entries_iff.mp (List.mem_reverse.mp he)]
      rfl
    · cases heq
  | none =>
    cases hd : s.definitionAt scope name with
    | none => rfl
    | some d =>
      obtain ⟨rfl, -⟩ := h hd
      have hnone := List.findSome?_eq_none_iff.mp hlisted (name, d)
        (List.mem_reverse.mpr (h.mem_entries_iff.mpr hd))
      rw [if_pos ⟨rfl, rfl⟩] at hnone
      cases hnone

end Scopes

/-! ### Assembling a listing -/

namespace Session

open Assembler6502.Assembly

variable {disk : Disk} {input : Input} {source : Source} {entries : List (String × Definition)}

/-- A pass of a session over a listing. -/
theorem runPass_entries {s : Session} (hs : s.scopes.Unlabelled)
    (hbytes : source.bytes = Byte.ofChars (entries.flatMap entryText))
    (hread : ∀ e ∈ entries, Readable e) (pass : Pass) (disk : Disk) (image : Option Emitter) :
    ∃ t, s.runPass pass disk source image = .ok () t ∧
      (s.initial source image).Binds pass entries t := by
  have hinitial : (s.initial source image).AtEntries entries := ⟨⟨rfl, hbytes⟩, rfl, rfl, hs⟩
  obtain ⟨t, hrun, hbinds⟩ := run_entries (s.setting pass disk) hinitial hread
  refine ⟨t, ?_, hbinds⟩
  rw [runPass, hrun]
  exact if_pos hbinds.errors

/-- Between the passes over a listing no name has a value. -/
theorem definitionAt_between_entries {s : Session} {middle : State}
    (h : (s.reset.initial source none).Binds .first entries middle) (scope : List String)
    (name : String) : (s.between middle).scopes.definitionAt scope name = none := by
  have hforgotten := Scopes.definitionAt_foldl_eraseEverywhere middle.assigned middle.scopes scope
    name
  refine hforgotten.trans ?_
  split
  · rfl
  · next hassigned =>
    rw [h.assigned rfl] at hassigned
    rw [h.values, Option.or_eq_none_iff]
    refine ⟨List.findSome?_eq_none_iff.mpr fun e he => if_neg ?_, rfl⟩
    rintro ⟨-, rfl⟩
    exact hassigned (List.mem_append_right _ (List.mem_map_of_mem (List.mem_reverse.mp he)))

/-- Assembling a listing emits nothing, and binds the names of the listing and no others. -/
theorem assemble_entries (hsource : input.source disk = .ok source)
    (hbytes : source.bytes = Byte.ofChars (entries.flatMap entryText))
    (hread : ∀ e ∈ entries, Readable e) (session : Session) :
    ∃ done, assemble disk input ⟨session, .ofCapacity none⟩ =
        .ok ⟨session.options.origin, session.options.origin.toUInt32.toInt32, 0⟩ done ∧
      done.writer.written = session.options.format.header session.options.origin ∧
      ∀ scope name,
        done.session.scopes.definitionAt scope name = listed entries scope name := by
  obtain ⟨middle, hfirst, hmiddle⟩ := runPass_entries (s := session.reset)
    (fun _ _ _ => nofun) hbytes hread .first disk none
  have hpass := firstPass_of_runPass hsource hfirst
  have hstart : middle.start.toUInt32.toUInt16 = session.options.origin := by
    rw [hmiddle.start]
    simp [initial, reset, start]
  -- the second pass begins without values, since the first one has assigned to all names
  obtain ⟨last, hsecond, hlast⟩ := runPass_entries (s := session.between middle)
    (hmiddle.unlabelled.foldl_eraseEverywhere _) hbytes hread .second disk
    (some ⟨session.options.format,
      ⟨session.options.format.header session.options.origin, none⟩, 0⟩)
  refine ⟨⟨(session.between middle).resume last,
    ⟨session.options.format.header session.options.origin, none⟩⟩, ?_, rfl, fun scope name => ?_⟩
  · have hbegin : Emitter.begin session.options.origin
        (.start (session.between middle).options.format (.ofCapacity none)) =
          .ok () ⟨session.options.format,
            ⟨session.options.format.header session.options.origin, none⟩, 0⟩ := rfl
    unfold assemble
    rw [hpass]
    dsimp only
    rw [hstart, secondPass_eq, hbegin]
    dsimp only
    rw [hsource]
    dsimp only
    rw [hsecond]
    dsimp only
    rw [hlast.image, hlast.address]
    rfl
  · have hbetween := definitionAt_between_entries hmiddle scope name
    refine (hlast.values scope name).trans ?_
    show (listed entries scope name).or ((session.between middle).scopes.definitionAt scope name) = _
    rw [hbetween, Option.or_none]

variable {job done : Job} {report : Report}

/-- The listing of the names can be assembled.  Let a run succeed that opens no scope, and let all
its values be words.  Then any source that has the bytes of its listing is assembled without an
error, in any session, of which the names are forgotten first.  Nothing is emitted, so that there is
the header alone.  The names of the run are bound again to their values and nothing else is, and
they are listed in the same way. -/
theorem listing_reads_back (h : assemble disk input job = .ok report done)
    (hflat : ∀ v ∈ firstVisits disk input job.session, ∀ name, v.statement ≠ .openScope name)
    (hwords : ∀ e ∈ done.session.scopes.entries, 0 ≤ e.2.value.toInt ∧ e.2.value.toInt ≤ 0xffff)
    {disk' : Disk} {input' : Input} (hsource : input'.source disk' = .ok source)
    (hbytes : source.bytes = Byte.ofString done.session.listing) (session : Session) :
    ∃ done', assemble disk' input' ⟨session, .ofCapacity none⟩ =
        .ok ⟨session.options.origin, session.options.origin.toUInt32.toInt32, 0⟩ done' ∧
      done'.writer.written = session.options.format.header session.options.origin ∧
      done'.session.scopes.entries =
        done.session.scopes.entries.map (fun e => (e.1, ⟨.identifier, e.2.value⟩)) ∧
      done'.session.listing = done.session.listing := by
  obtain ⟨p⟩ := passes_of_assemble h
  have hnames : done.session.scopes.Flat := fun hd => ⟨p.outermost hflat hd, p.isNameText hd⟩
  have hread : ∀ e ∈ done.session.scopes.entries, Readable e := fun e he =>
    ⟨(hnames (hnames.mem_entries_iff.mp he)).2, fitsWord_iff.mpr (hwords e he)⟩
  obtain ⟨done', hrun, hwritten, hvalues⟩ :=
    assemble_entries hsource (hbytes.trans (ofString_listing hread)) hread session
  have hvalues : ∀ scope name, done'.session.scopes.definitionAt scope name =
      (done.session.scopes.definitionAt scope name).map fun d => ⟨.identifier, d.value⟩ :=
    fun scope name => (hvalues scope name).trans (hnames.listed_entries scope name)
  have hentries := hnames.entries_map hvalues
  refine ⟨done', hrun, hwritten, hentries, ?_⟩
  rw [listing, hentries, List.map_map]
  rfl

/-- A loop with a number for its counter, in letters of either case. -/
def countingInput : Input :=
  .text "main" (Byte.ofChars "Count = 10\nLoop: ldx #count\n bne loop\nDone:\n".toList)

/-- The labels of the loop and its number are listed, and read back. -/
theorem listing_reads_back_counting :
    ∃ report done done', assemble (.empty []) countingInput .plain = .ok report done ∧
      done.session.listing = "count = $000A\ndone = $1004\nloop = $1000\n" ∧
      assemble (.empty []) (.text "names" (Byte.ofString done.session.listing)) .plain =
        .ok ⟨0x1000, 0x1000, 0⟩ done' ∧
      done'.writer.written = [] ∧
      done'.session.scopes.entries = [("count", ⟨.identifier, 10⟩), ("done", ⟨.identifier, 0x1004⟩),
        ("loop", ⟨.identifier, 0x1000⟩)] ∧
      done'.session.listing = done.session.listing := by
  obtain ⟨report, done, hrun, hresult⟩ :=
    exists_of_trace (n := 9)
      (f := fun (vs, _, _, done) => decide
        ((∀ v ∈ vs, v.statement.pathBehind [] = []) ∧
          done.session.scopes.definitions = [(⟨[], "count"⟩, ⟨.identifier, 10⟩),
            (⟨[], "done"⟩, ⟨.label, 0x1004⟩), (⟨[], "loop"⟩, ⟨.label, 0x1000⟩)]))
      (show (trace 9 (.empty []) countingInput .plain).map _ = some true by decide +kernel)
  obtain ⟨hpaths, hdefinitions⟩ := of_decide_eq_true hresult
  have hentries : done.session.scopes.entries = [("count", ⟨.identifier, 10⟩),
      ("done", ⟨.label, 0x1004⟩), ("loop", ⟨.label, 0x1000⟩)] := by
    rw [Scopes.entries, hdefinitions, List.mergeSort_of_pairwise (by decide +kernel)]
    rfl
  have hflat : ∀ v ∈ firstVisits (.empty []) countingInput Job.plain.session, ∀ name,
      v.statement ≠ .openScope name := by
    intro v hv name heq
    have hpath := hpaths v hv
    rw [heq] at hpath
    cases hpath
  have hwords : ∀ e ∈ done.session.scopes.entries,
      0 ≤ e.2.value.toInt ∧ e.2.value.toInt ≤ 0xffff := by
    rw [hentries]
    simp
  have hsource : (Input.text "names" (Byte.ofString done.session.listing)).source (.empty []) =
      .ok _ := rfl
  obtain ⟨done', hagain, hwritten, hentries', hlisting⟩ :=
    listing_reads_back hrun hflat hwords hsource rfl (.start {})
  refine ⟨report, done, done', hrun, ?_, hagain, hwritten, ?_, hlisting⟩
  · rw [listing, hentries]
    decide +kernel
  · rw [hentries', hentries]
    rfl

end Session

end Assembler6502
