/-
The files that a pass reads.

A pass looks at the disk only where a line includes a file.  So a file that a
pass does not read has no part in what the pass does, even if the file was not
there.

* **`Reads`** — the places of the files that a pass reads;
* **`included?_of_unread`** — a file that is not included does not decide which
  file is;
* **`runOn_of_unread`** — a pass while a file changes that it does not read.
-/
import Assembler6502.Proofs.Assembly.Alike
import Assembler6502.Proofs.Assembly.Visits
import Assembler6502.Proofs.Disk.Changes

namespace Assembler6502

namespace Assembly

variable {setting : Setting} {d d' : Disk} {s t : State} {place : Place} {path : String}
  {changed : Place → Prop}

/-- A pass reads the file at a place, from step `k` on: a step leads to where this file is the
current one. -/
inductive Reads (setting : Disk → Setting) (course : Course) : (k held : Nat) → State → Place → Prop
    where
  | now {k held : Nat} {s t : State} {disk : Disk} {path : String} {place : Place}
      {entry : Disk.Entry} (meanwhile : course k held s.written = .ok disk)
      (next : step (setting disk) s = .next t) (current : t.files.current.source.path = some path)
      (found : disk.locate path = .ok (place, entry)) : Reads setting course k held s place
  | later {k held : Nat} {s t : State} {disk : Disk} {place : Place}
      (meanwhile : course k held s.written = .ok disk) (next : step (setting disk) s = .next t)
      (reads : Reads setting course (k + 1) (heldBehind (setting disk) s t held) t place) :
      Reads setting course k held s place

/-! ### Including files -/

theorem path_of_openSource {found : Source} (h : (openSource d path).toOption = some found) :
    found.path = some path := by
  unfold openSource at h
  cases hread : d.read path with
  | error error =>
    rw [hread] at h
    cases h
  | ok bytes =>
    rw [hread] at h
    cases h
    rfl

theorem openSource_eq_none_iff :
    (openSource d path).toOption = none ↔ d.isFile path = false := by
  rw [← Bool.not_eq_true, Disk.isFile_iff, openSource]
  cases d.read path with
  | error error => simp [Except.map, Except.toOption]
  | ok bytes => simp [Except.map, Except.toOption]

/-- A file is looked for under its name, and then beside the including file. -/
theorem included?_eq (d : Disk) (source : Source) (name : String) :
    included? d source name = (openSource d name).toOption.or
      (source.path.bind fun path =>
        (openSource d (Path.join (Path.parent path) name)).toOption) := by
  unfold included? findInclude
  cases hname : d.isFile name with
  | true =>
    have hsome : (openSource d name).toOption ≠ none := by
      rw [Ne, openSource_eq_none_iff, hname]
      simp
    obtain ⟨found, hfound⟩ := Option.ne_none_iff_exists.mp hsome
    simp [← hfound]
  | false =>
    rw [openSource_eq_none_iff.mpr hname]
    cases source.path with
    | none => rfl
    | some path =>
      cases hbeside : d.isFile (Path.join (Path.parent path) name) with
      | true => simp [hbeside]
      | false => simp [hbeside, openSource_eq_none_iff.mpr hbeside]

section

variable (h : Disk.Touched changed d d')

include h

theorem openSource_of_unread
    (hunread : ∀ p entry, changed p → d.locate path ≠ .ok (p, entry)) :
    (openSource d path).toOption = (openSource d' path).toOption := by
  have hread := h.read hunread
  unfold openSource
  cases hd : d.read path with
  | ok bytes => rw [(hread bytes).mp hd]
  | error error =>
    cases hd' : d'.read path with
    | ok bytes =>
      rw [(hread bytes).mpr hd'] at hd
      cases hd
    | error error' => rfl

/-- A file that is there can be opened. -/
theorem unread_of_none (hnone : (openSource d path).toOption = none) (p : Place)
    (entry : Disk.Entry) (hp : changed p) : d.locate path ≠ .ok (p, entry) := by
  intro hlocate
  obtain ⟨bytes, hfile⟩ := h.files p hp
  obtain ⟨hlead, -⟩ := Disk.locate_eq_ok_iff.mp hlocate
  have hisFile : d.isFile path = true :=
    Disk.isFile_iff.mpr ⟨bytes, Disk.read_eq_ok_iff.mpr
      ⟨p, Disk.locate_eq_ok_iff.mpr ⟨hlead, hfile⟩⟩⟩
  rw [openSource_eq_none_iff, hisFile] at hnone
  cases hnone

/-- A file that is not included does not decide which file is. -/
theorem included?_of_unread {source : Source} {name : String}
    (hunread : ∀ found path p entry, included? d source name = some found →
      found.path = some path → changed p → d.locate path ≠ .ok (p, entry)) :
    included? d source name = included? d' source name := by
  -- what is opened on the first disk is included, so it is none of the files that differ
  have hopen : ∀ path, (openSource d path).toOption = included? d source name ∨
      (openSource d path).toOption = none →
      (openSource d path).toOption = (openSource d' path).toOption := by
    intro path hpath
    refine openSource_of_unread h ?_
    cases hfound : (openSource d path).toOption with
    | none => exact unread_of_none h hfound
    | some found =>
      have hincluded : included? d source name = some found := by
        rcases hpath with hpath | hpath
        · exact hpath.symm.trans hfound
        · rw [hpath] at hfound
          cases hfound
      exact fun p entry => hunread found path p entry hincluded (path_of_openSource hfound)
  have heq := included?_eq d source name
  cases hname : (openSource d name).toOption with
  | some found =>
    rw [hname, Option.some_or] at heq
    rw [heq, included?_eq, ← hopen name (.inl (hname.trans heq.symm)), hname, Option.some_or]
  | none =>
    rw [hname, Option.none_or] at heq
    rw [heq, included?_eq, ← hopen name (.inr hname), hname, Option.none_or]
    cases hpath : source.path with
    | none => rfl
    | some path =>
      rw [hpath, Option.bind_some] at heq
      exact hopen _ (.inl heq.symm)

end

/-! ### Passes -/

theorem executeInclude_congr {name : String}
    (h : s.files.outer.length + 1 < includeLimit →
      included? d s.files.current.source name = included? d' s.files.current.source name) :
    executeInclude d name s = executeInclude d' name s := by
  by_cases hdepth : s.files.outer.length + 1 < includeLimit
  · have hsame := h hdepth
    cases hincluded : included? d s.files.current.source name with
    | none =>
      rw [executeInclude_of_none hdepth hincluded,
        executeInclude_of_none hdepth (hsame.symm.trans hincluded)]
    | some source =>
      rw [executeInclude_of_some hdepth hincluded,
        executeInclude_of_some hdepth (hsame.symm.trans hincluded)]
  · rw [executeInclude_of_deep name hdepth, executeInclude_of_deep name hdepth]

/-- A step looks at the disk only where a line includes a file. -/
theorem step_congr (h : ∀ name r,
      Statement.parse (s.context setting) s.reading = .ok (.includeFile name) r →
      executeInclude setting.disk name (s.resume r) = executeInclude d name (s.resume r)) :
    step setting s = step { setting with disk := d } s := by
  have hcontext : s.context { setting with disk := d } = s.context setting := rfl
  unfold step
  rw [hcontext]
  generalize Statement.parse (s.context setting) s.reading = x at h ⊢
  cases x with
  | error e r => rfl
  | ok statement r =>
    cases statement with
    | includeFile name =>
      show carryOut setting (.includeFile name) (s.resume r) =
        carryOut { setting with disk := d } (.includeFile name) (s.resume r)
      unfold carryOut execute
      dsimp only
      rw [h name r rfl]
    | _ => rfl

theorem step_of_unread (h : Disk.Touched changed setting.disk d)
    (hunread : ∀ t path p entry, step setting s = .next t →
      t.files.current.source.path = some path → changed p →
      setting.disk.locate path ≠ .ok (p, entry)) :
    step setting s = step { setting with disk := d } s := by
  refine step_congr fun name r hparse => executeInclude_congr fun hdepth => ?_
  refine included?_of_unread h fun found path p entry hfound hpath => ?_
  refine hunread { s.resume r with files := (s.resume r).files.push (.start found) hdepth } path p
    entry ?_ hpath
  rw [step_of_parse hparse (by simp) (by simp), carryOut, execute,
    executeInclude_of_some hdepth hfound]

/-- A pass while files change that it does not read.  It goes like a pass on the disk as it was, up to
its end or up to a write that fails. -/
theorem runOn_of_unread {pass : Pass} {characters : CharacterSet} {course : Course} {disk : Disk}
    {k held : Nat}
    (hcourse : ∀ k held written d, course k held written = .ok d → Disk.Touched changed d disk)
    (hunread : ∀ p, changed p → ¬ Reads (.mk pass characters) course k held s p) :
    runOn (.mk pass characters) course k held s = run ⟨pass, characters, disk⟩ s ∨
      ∃ j held' error t, Reaches ⟨pass, characters, disk⟩ s t ∧
        course j held' t.written = .error error ∧
        runOn (.mk pass characters) course k held s = .error (.file error) t := by
  have hstep : ∀ {k held s d}, course k held s.written = .ok d →
      (∀ p, changed p → ¬ Reads (.mk pass characters) course k held s p) →
      step ⟨pass, characters, d⟩ s = step ⟨pass, characters, disk⟩ s := by
    intro k held s d hd hunread
    have htouched : Disk.Touched changed (Setting.mk pass characters d).disk disk :=
      hcourse _ _ _ _ hd
    refine step_of_unread htouched fun t path p entry hnext hpath hp hfound => ?_
    exact hunread p hp (.now hd hnext hpath hfound)
  fun_induction runOn (.mk pass characters) course k held s with
  | case1 k held s error herror => exact .inr ⟨k, held, error, s, .refl, herror, rfl⟩
  | case2 k held s d hd t hnext ih =>
    have hnext' := (hstep hd hunread).symm.trans hnext
    rw [run_of_next hnext']
    rcases ih fun p hp hreads => hunread p hp (.later hd hnext hreads) with
      hrun | ⟨j, held', error, u, hreaches, hstopped⟩
    · exact .inl hrun
    · exact .inr ⟨j, held', error, u, .head hnext' hreaches, hstopped⟩
  | case3 k held s d hd t hend =>
    exact .inl (run_of_finished ((hstep hd hunread).symm.trans hend)).symm
  | case4 k held s d hd fault t hend =>
    exact .inl (run_of_stopped ((hstep hd hunread).symm.trans hend)).symm

/-! ### Passes of a few steps -/

/-- The place of the current file, if there is one. -/
def placeOfCurrent (disk : Disk) (s : State) : List Place :=
  (s.files.current.source.path.bind fun path =>
    (disk.locate path).toOption.map Prod.fst).toList

theorem mem_placeOfCurrent {disk : Disk} {entry : Disk.Entry}
    (hpath : s.files.current.source.path = some path)
    (hlocate : disk.locate path = .ok (place, entry)) : place ∈ placeOfCurrent disk s := by
  rw [placeOfCurrent, hpath, Option.bind_some, hlocate]
  exact List.mem_singleton_self place

/-- The places that a pass reads, if it ends within `n` steps. -/
def placesRead (setting : Disk → Setting) (course : Course) :
    (n k held : Nat) → State → Option (List Place)
  | 0, _, _, _ => none
  | n + 1, k, held, s =>
    match course k held s.written with
    | .error _ => some []
    | .ok disk =>
      match step (setting disk) s with
      | .next t =>
        (placesRead setting course n (k + 1) (heldBehind (setting disk) s t held) t).map
          (placeOfCurrent disk t ++ ·)
      | .finished _ | .stopped _ _ => some []

theorem mem_placesRead {setting : Disk → Setting} {course : Course} {n k held : Nat}
    {places : List Place} (h : placesRead setting course n k held s = some places)
    (hreads : Reads setting course k held s place) : place ∈ places := by
  induction n generalizing k held s places with
  | zero => cases h
  | succ n ih =>
    unfold placesRead at h
    cases hreads with
    | now meanwhile next current found =>
      rw [meanwhile] at h
      dsimp only at h
      rw [next] at h
      obtain ⟨rest, -, rfl⟩ := Option.map_eq_some_iff.mp h
      exact List.mem_append_left _ (mem_placeOfCurrent current found)
    | later meanwhile next reads =>
      rw [meanwhile] at h
      dsimp only at h
      rw [next] at h
      obtain ⟨rest, hplaces, rfl⟩ := Option.map_eq_some_iff.mp h
      exact List.mem_append_right _ (ih hplaces reads)

end Assembly

end Assembler6502
