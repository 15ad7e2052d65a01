/-
Changing the files of a disk.

A path is followed through directories and links, so a file that is written or
removed changes where no path leads.  It changes at all names of the file, and
nowhere else.

* **`SameFile`** — names of one file;
* **`SameBut`** — two disks that differ at some places at most;
* **`sameBut_write`**, **`sameBut_abandon`** — what an operation changes;
* **`SameWays`** — two disks that differ in files only, so that each path leads
  to the same place;
* **`Touched.read`** — what is read from other files is the same;
* **`target_eq_ok_iff`** — where a file can be written;
* **`lead_of_nameOf`** — a path whose last name is no link leads to that name.
-/
import Assembler6502.Disk

namespace Assembler6502

/-! ### The last component of a path -/

namespace Path

theorem pieces_ne_nil (cs : List Char) : pieces cs ≠ [] := by
  fun_cases pieces cs <;> simp

/-- The last piece of a text is empty only behind a slash. -/
theorem getLast?_pieces {cs : List Char} (h : (pieces cs).getLast? = some []) :
    cs = [] ∨ cs.getLast? = some '/' := by
  induction cs with
  | nil => exact .inl rfl
  | cons c rest ih =>
    refine .inr ?_
    obtain ⟨piece, others, hpieces⟩ := List.exists_cons_of_ne_nil (pieces_ne_nil rest)
    by_cases hc : c = '/'
    · subst hc
      cases hrest : rest with
      | nil => rfl
      | cons c' rest' =>
        rw [pieces, if_pos rfl, hpieces, List.getLast?_cons_cons, ← hpieces] at h
        rw [List.getLast?_cons_cons, ← hrest]
        exact (ih h).resolve_left (by simp [hrest])
    · rw [pieces, if_neg hc, hpieces] at h
      cases hothers : others with
      | nil =>
        rw [hothers] at h
        cases h
      | cons other others' =>
        rw [hothers, List.getLast?_cons_cons] at h
        have hslash := ih (by rw [hpieces, hothers, List.getLast?_cons_cons]; exact h)
        have hrest : rest ≠ [] := by
          rintro rfl
          rw [hothers] at hpieces
          cases hpieces
        obtain ⟨c', rest', rfl⟩ := List.exists_cons_of_ne_nil hrest
        rw [List.getLast?_cons_cons]
        exact hslash.resolve_left hrest

theorem getLast?_components {path : String} (hpath : path ≠ "")
    (hslash : path.toList.getLast? ≠ some '/') : (components path).getLast? ≠ some "" := by
  intro h
  rw [components, List.getLast?_map] at h
  obtain ⟨piece, hpiece, hempty⟩ := Option.map_eq_some_iff.mp h
  obtain rfl : piece = [] := by simpa using hempty
  rcases getLast?_pieces hpiece with hnil | hlast
  · exact hpath (by simpa using hnil)
  · exact hslash hlast

end Path

namespace Disk

variable {d d' : Disk} {place p q : Place} {path : String} {entry : Entry} {bytes : List UInt8}
  {changed : Place → Prop}

/-! ### What is at a place -/

theorem entry?_of_isDirectory (h : d.isDirectory p = true) : d.entry? p = some .directory := by
  rw [ entry?, if_pos h]

theorem entry?_of_not (h : d.isDirectory p = false) :
    d.entry? p = (d.node? p).map d.entryOf := by
  rw [ entry?, if_neg (by simp [h])]

theorem node?_of_not (h : d.isDirectory p = false) : d.node? p = d.nodes.get? p := by
  rw [ node?, if_neg (by simp [h])]

theorem isDirectory_of_node? {node : Node} (h : d.node? p = some node) :
    d.isDirectory p = false := by
  cases hp : d.isDirectory p with
  | false => rfl
  | true =>
    rw [ node?, if_pos hp] at h
    cases h

/-- Paths end at the place: there is a file, or nothing. -/
def Terminal (d : Disk) (p : Place) : Prop :=
  d.entry? p = none ∨ ∃ bytes, d.entry? p = some (.file bytes)

theorem Terminal.ne_directory (h : d.Terminal p) : d.entry? p ≠ some .directory := by
  rcases h with h | ⟨bytes, h⟩ <;> simp [h]

theorem Terminal.ne_link (h : d.Terminal p) (text : String) : d.entry? p ≠ some (.link text) := by
  rcases h with h | ⟨bytes, h⟩ <;> simp [h]

theorem Terminal.isDirectory (h : d.Terminal p) : d.isDirectory p = false := by
  cases hp : d.isDirectory p with
  | false => rfl
  | true => exact absurd (entry?_of_isDirectory hp) h.ne_directory

theorem entry?_of_file {number : Nat} (h : d.node? p = some (.file number)) :
    d.entry? p = some (.file (d.bytes number)) := by
  rw [entry?_of_not (isDirectory_of_node? h), h]
  rfl

theorem exists_node_of_file (h : d.entry? p = some (.file bytes)) :
    ∃ number, d.node? p = some (.file number) ∧ bytes = d.bytes number := by
  have hp : d.isDirectory p = false := (show d.Terminal p from .inr ⟨bytes, h⟩).isDirectory
  rw [entry?_of_not hp] at h
  obtain ⟨node, hnode, hentry⟩ := Option.map_eq_some_iff.mp h
  cases node with
  | file number =>
    cases hentry
    exact ⟨number, hnode, rfl⟩
  | link text => cases hentry

/-! ### Names of one file -/

/-- The places are names of one file. -/
def SameFile (d : Disk) (p q : Place) : Prop :=
  p = q ∨ ∃ number, d.node? p = some (.file number) ∧ d.node? q = some (.file number)

theorem SameFile.terminal (h : d.SameFile p q) (hp : d.Terminal p) : d.Terminal q := by
  rcases h with rfl | ⟨number, -, hq⟩
  · exact hp
  · exact .inr ⟨_, entry?_of_file hq⟩

/-- No file has the number of a new one. -/
theorem ne_fresh {number : Nat} (h : d.node? p = some (.file number)) : number ≠ d.fresh := by
  have hmem : (p, .file number) ∈ d.nodes.pairs := by
    rw [node?_of_not (isDirectory_of_node? h)] at h
    exact FiniteMap.mem_pairs_iff.mpr h
  suffices hlt : number < d.fresh from Nat.ne_of_lt hlt
  unfold fresh
  generalize d.nodes.pairs = nodes at hmem ⊢
  induction nodes with
  | nil => cases hmem
  | cons node rest ih =>
    rw [List.map_cons, List.foldr_cons]
    rcases List.mem_cons.mp hmem with rfl | hmem
    · exact Nat.le_max_left _ _
    · exact Nat.lt_of_lt_of_le (ih hmem) (Nat.le_max_right _ _)

/-- A file with the number at a place is the one at this place. -/
theorem sameFile_of_numberAt (h : d.node? p = some (.file (d.numberAt place))) :
    d.SameFile place p := by
  unfold numberAt at h
  split at h
  · next number hplace => exact .inr ⟨number, hplace, h⟩
  · exact absurd rfl (ne_fresh h)

theorem numberAt_of_file {number : Nat} (h : d.node? p = some (.file number)) :
    d.numberAt p = number := by
  rw [numberAt, h]

/-! ### Writing and removing -/

theorem isDirectory_write : (d.write place bytes).isDirectory p = d.isDirectory p :=
  rfl

theorem node?_write (h : d.isDirectory p = false) :
    (d.write place bytes).node? p =
      if p = place then some (.file (d.numberAt place)) else d.node? p := by
  rw [node?_of_not (isDirectory_write.trans h), node?_of_not h]
  exact FiniteMap.get?_insert _ _ _ _

theorem bytes_write (number : Nat) : (d.write place bytes).bytes number =
    if number = d.numberAt place then bytes else d.bytes number := by
  unfold Disk.bytes write
  dsimp only
  rw [FiniteMap.get?_insert]
  split <;> rfl

theorem entry?_write (h : d.Terminal place) (bytes : List UInt8) :
    Disk.entry? (d.write place bytes) place = some (.file bytes) := by
  rw [entry?_of_not (isDirectory_write.trans h.isDirectory), node?_write h.isDirectory, if_pos rfl]
  show some (Entry.file ((d.write place bytes).bytes (d.numberAt place))) = _
  rw [bytes_write, if_pos rfl]

/-- A file is written under its names only. -/
theorem entry?_write_of_not (h : ¬ d.SameFile place p) :
    Disk.entry? (d.write place bytes) p = d.entry? p := by
  cases hp : d.isDirectory p with
  | true => rw [entry?_of_isDirectory hp, entry?_of_isDirectory (isDirectory_write.trans hp)]
  | false =>
    have hne : p ≠ place := fun heq => h (.inl heq.symm)
    rw [entry?_of_not hp, entry?_of_not (isDirectory_write.trans hp), node?_write hp, if_neg hne]
    cases hnode : d.node? p with
    | none => rfl
    | some node =>
      cases node with
      | link text => rfl
      | file number =>
        have hnumber : number ≠ d.numberAt place := by
          rintro rfl
          exact h (sameFile_of_numberAt hnode)
        show some (Entry.file ((d.write place bytes).bytes number)) = _
        rw [bytes_write, if_neg hnumber]
        rfl

theorem sameFile_write : (d.write place bytes).SameFile p q ↔ d.SameFile p q := by
  have hfile : ∀ {r r' number}, (d.write place bytes).node? r = some (.file number) →
      (d.write place bytes).node? r' = some (.file number) → d.SameFile r r' := by
    intro r r' number hr hr'
    rw [node?_write (isDirectory_write.symm.trans (isDirectory_of_node? hr))] at hr
    rw [node?_write (isDirectory_write.symm.trans (isDirectory_of_node? hr'))] at hr'
    split at hr
    · next heq =>
      cases hr
      subst heq
      split at hr'
      · next heq' => exact .inl heq'.symm
      · exact sameFile_of_numberAt hr'
    · split at hr'
      · next heq' =>
        cases hr'
        subst heq'
        rcases sameFile_of_numberAt hr with heq | ⟨number, hr', hr⟩
        · exact .inl heq.symm
        · exact .inr ⟨number, hr, hr'⟩
      · exact .inr ⟨number, hr, hr'⟩
  have hkept : ∀ {r number}, d.node? r = some (.file number) →
      (d.write place bytes).node? r = some (.file number) := by
    intro r number hr
    rw [node?_write (isDirectory_of_node? hr)]
    split
    · next heq =>
      subst heq
      rw [numberAt_of_file hr]
    · exact hr
  constructor
  · rintro (rfl | ⟨number, hp, hq⟩)
    · exact .inl rfl
    · exact hfile hp hq
  · rintro (rfl | ⟨number, hp, hq⟩)
    · exact .inl rfl
    · exact .inr ⟨number, hkept hp, hkept hq⟩

/-- The names of a file that is written are names of a file then. -/
theorem exists_entry?_write (h : d.Terminal place) (bytes : List UInt8)
    (hp : d.SameFile place p) :
    ∃ bytes', Disk.entry? (d.write place bytes) p = some (.file bytes') := by
  rcases sameFile_write.mpr hp with rfl | ⟨number, -, hnode⟩
  · exact ⟨bytes, entry?_write h bytes⟩
  · exact ⟨_, entry?_of_file hnode⟩

theorem entry?_remove (h : d.isDirectory place = false) :
    Disk.entry? (d.remove place) place = none := by
  have hplace : (d.remove place).isDirectory place = false := h
  rw [entry?_of_not hplace, node?_of_not hplace, remove, FiniteMap.get?_erase, if_pos rfl]
  rfl

theorem entry?_remove_of_ne (h : p ≠ place) : Disk.entry? (d.remove place) p = d.entry? p := by
  cases hp : d.isDirectory p with
  | true =>
    have hremoved : (d.remove place).isDirectory p = true := hp
    rw [entry?_of_isDirectory hp, entry?_of_isDirectory hremoved]
  | false =>
    have hremoved : (d.remove place).isDirectory p = false := hp
    rw [entry?_of_not hp, entry?_of_not hremoved, node?_of_not hp, node?_of_not hremoved, remove,
      FiniteMap.get?_erase, if_neg h]
    rfl

/-! ### Disks that differ at some places -/

/-- The disks differ at some places at most. -/
structure SameBut (changed : Place → Prop) (d d' : Disk) : Prop where
  here : d'.here = d.here
  locked : d'.locked = d.locked
  device : d'.device = d.device
  elsewhere : ∀ p, ¬ changed p → d'.entry? p = d.entry? p

theorem SameBut.symm (h : d.SameBut changed d') : d'.SameBut changed d :=
  ⟨h.here.symm, h.locked.symm, h.device.symm, fun p hp => (h.elsewhere p hp).symm⟩

theorem SameBut.trans {d'' : Disk} (h : d.SameBut changed d') (h' : d'.SameBut changed d'') :
    d.SameBut changed d'' :=
  ⟨h'.here.trans h.here, h'.locked.trans h.locked, h'.device.trans h.device,
    fun p hp => (h'.elsewhere p hp).trans (h.elsewhere p hp)⟩

theorem SameBut.mono {changed' : Place → Prop} (h : d.SameBut changed d')
    (hchanged : ∀ p, changed p → changed' p) : d.SameBut changed' d' :=
  ⟨h.here, h.locked, h.device, fun p hp => h.elsewhere p fun hc => hp (hchanged p hc)⟩

theorem sameBut_write (d : Disk) (place : Place) (bytes : List UInt8) :
    d.SameBut (d.SameFile place) (d.write place bytes) :=
  ⟨rfl, rfl, rfl, fun _ hp => entry?_write_of_not hp⟩

theorem sameBut_remove (d : Disk) (place : Place) : d.SameBut (· = place) (d.remove place) :=
  ⟨rfl, rfl, rfl, fun _ hp => entry?_remove_of_ne hp⟩

/-! ### Following paths -/

/-- The disks differ in files only, so that no path leads through what differs. -/
structure SameWays (changed : Place → Prop) (d d' : Disk) : Prop where
  same : d.SameBut changed d'
  before : ∀ p, changed p → d.Terminal p
  after : ∀ p, changed p → d'.Terminal p

namespace SameWays

variable (h : SameWays changed d d')

include h

theorem symm : SameWays changed d' d :=
  ⟨h.same.symm, h.after, h.before⟩

theorem entry?_of_not (hp : ¬ d.Terminal p) : d'.entry? p = d.entry? p :=
  h.same.elsewhere p fun hc => hp (h.before p hc)

theorem terminal (hp : d.Terminal p) : d'.Terminal p := by
  by_cases hc : changed p
  · exact h.after p hc
  · rw [Terminal, h.same.elsewhere p hc]
    exact hp

theorem directory (hp : d.entry? p = some .directory) : d'.entry? p = some .directory :=
  (h.entry?_of_not fun hend => hend.ne_directory hp).trans hp

theorem link {text : String} (hp : d.entry? p = some (.link text)) :
    d'.entry? p = some (.link text) :=
  (h.entry?_of_not fun hend => hend.ne_link text hp).trans hp

/-- The way up to the first link is the same. -/
theorem walk {onward onward' : Place → List String → Except FileError Place}
    (honward : ∀ start components, onward start components = .ok p →
      onward' start components = .ok p)
    {start : Place} {components : List String} (hwalk : d.walk onward start components = .ok p) :
    d'.walk onward' start components = .ok p := by
  induction components generalizing start with
  | nil => exact hwalk
  | cons component rest ih =>
    unfold Disk.walk at hwalk ⊢
    split at hwalk
    · cases hwalk
    · cases hwalk
    · cases hwalk
    · next hstart =>
      rw [h.directory hstart]
      dsimp only
      split at hwalk
      · next text hlink =>
        rw [h.link hlink]
        exact honward _ _ hwalk
      · next hno =>
        split
        · next text hlink => exact absurd (h.symm.link hlink) (hno text)
        · exact ih hwalk

theorem follow {links : Nat} {start : Place} {components : List String}
    (hfollow : d.follow links start components = .ok p) :
    d'.follow links start components = .ok p := by
  induction links generalizing start components with
  | zero => exact h.walk (fun _ _ hend => hend) hfollow
  | succ links ih => exact h.walk (fun _ _ hon => ih hon) hfollow

theorem lead (hlead : d.lead path = .ok p) : d'.lead path = .ok p := by
  unfold Disk.lead at hlead ⊢
  split at hlead
  · cases hlead
  · next hpath =>
    rw [if_neg hpath, h.same.here]
    exact h.follow hlead

end SameWays

theorem bind_eq_ok_iff {ε α β : Type} {x : Except ε α} {f : α → Except ε β} {b : β} :
    (x >>= f) = .ok b ↔ ∃ a, x = .ok a ∧ f a = .ok b := by
  constructor
  · intro h
    cases x with
    | error e => cases h
    | ok a => exact ⟨a, rfl, h⟩
  · rintro ⟨a, rfl, h⟩
    exact h

/-- What a path leads to. -/
theorem locate_eq_ok_iff :
    d.locate path = .ok (p, entry) ↔ d.lead path = .ok p ∧ d.entry? p = some entry := by
  unfold locate
  rw [bind_eq_ok_iff]
  constructor
  · rintro ⟨q, hlead, h⟩
    split at h
    · next hentry =>
      cases h
      exact ⟨hlead, hentry⟩
    · cases h
  · rintro ⟨hlead, hentry⟩
    refine ⟨p, hlead, ?_⟩
    rw [hentry]
    rfl

theorem locate_of_none (hlead : d.lead path = .ok p) (hentry : d.entry? p = none) :
    d.locate path = .error .notFound := by
  simp [locate, hlead, hentry, bind, Except.bind, throw, throwThe, MonadExceptOf.throw]

theorem read_eq_ok_iff :
    d.read path = .ok bytes ↔ ∃ p, d.locate path = .ok (p, .file bytes) := by
  unfold read
  rw [bind_eq_ok_iff]
  constructor
  · rintro ⟨⟨p, entry⟩, hlocate, h⟩
    cases entry with
    | file bytes =>
      cases h
      exact ⟨p, hlocate⟩
    | directory => cases h
    | link text => cases h
  · rintro ⟨p, hlocate⟩
    exact ⟨_, hlocate, rfl⟩

theorem isFile_iff : d.isFile path = true ↔ ∃ bytes, d.read path = .ok bytes := by
  simp only [read_eq_ok_iff]
  unfold isFile
  cases d.locate path with
  | error error => simp
  | ok found =>
    obtain ⟨p, entry⟩ := found
    cases entry <;> simp

/-- A path to another place leads to the same. -/
theorem SameWays.locate (h : SameWays changed d d') (hp : ¬ changed p)
    (hlocate : d.locate path = .ok (p, entry)) : d'.locate path = .ok (p, entry) := by
  obtain ⟨hlead, hentry⟩ := locate_eq_ok_iff.mp hlocate
  exact locate_eq_ok_iff.mpr ⟨h.lead hlead, (h.same.elsewhere p hp).trans hentry⟩

theorem sameWays_write (h : d.Terminal place) (bytes : List UInt8) :
    SameWays (d.SameFile place) d (d.write place bytes) where
  same := d.sameBut_write place bytes
  before _ hp := hp.terminal h
  after _ hp := .inr (exists_entry?_write h bytes hp)

/-- The disks differ in files only, which are there on the first one. -/
structure Touched (changed : Place → Prop) (d d' : Disk) : Prop extends SameWays changed d d' where
  files : ∀ p, changed p → ∃ bytes, d.entry? p = some (.file bytes)

theorem touched_write (h : d.Terminal place) (bytes : List UInt8) :
    Touched (d.SameFile place) (d.write place bytes) d where
  toSameWays := (sameWays_write h bytes).symm
  files _ hp := exists_entry?_write h bytes hp

/-- What is read from another file is the same. -/
theorem Touched.read (h : Touched changed d d')
    (hunread : ∀ p entry, changed p → d.locate path ≠ .ok (p, entry)) (bytes : List UInt8) :
    d.read path = .ok bytes ↔ d'.read path = .ok bytes := by
  rw [read_eq_ok_iff, read_eq_ok_iff]
  constructor
  · rintro ⟨p, hlocate⟩
    exact ⟨p, h.locate (fun hp => hunread p _ hp hlocate) hlocate⟩
  · rintro ⟨p, hlocate⟩
    refine ⟨p, h.symm.locate (fun hp => ?_) hlocate⟩
    obtain ⟨bytes', hfile⟩ := h.files p hp
    obtain ⟨hlead, -⟩ := locate_eq_ok_iff.mp hlocate
    exact hunread p _ hp (locate_eq_ok_iff.mpr ⟨h.symm.lead hlead, hfile⟩)

/-! ### Where files can be written -/

/-- The components of a path, the last one first, without slashes at its end. -/
def names (path : String) : List String :=
  (Path.components path).reverse.dropWhile (· = "")

/-- No slash ends a path on which a file can be written, so no component is left out. -/
theorem names_eq (hpath : path ≠ "") (hslash : path.toList.getLast? ≠ some '/') :
    names path = (Path.components path).reverse := by
  have hlast := Path.getLast?_components hpath hslash
  rw [List.getLast?_eq_head?_reverse] at hlast
  unfold names
  generalize (Path.components path).reverse = names at hlast ⊢
  cases names with
  | nil => rfl
  | cons name rest =>
    refine List.dropWhile_cons_of_neg fun hname => hlast ?_
    rw [List.head?_cons, of_decide_eq_true hname]

/-- The name that a path ends with. -/
theorem nameOf_eq_ok_iff : d.nameOf path = .ok place ↔
    path ≠ "" ∧ path.toList.getLast? ≠ some '/' ∧ ∃ directory name,
      d.follow linkLimit (base d.here path) (names path).tail.reverse = .ok directory ∧
      (names path).head? = some name ∧ name ≠ "." ∧ name ≠ ".." ∧
      d.entry? directory = some .directory ∧ place = directory ++ [name] := by
  unfold nameOf
  simp only [bind, Except.bind, pure, Except.pure, throw, throwThe, MonadExceptOf.throw]
  constructor
  · intro h
    split at h
    · cases h
    next hpath =>
    split at h
    · cases h
    next directory hdirectory =>
    split at h
    · cases h
    · cases h
    · next name hentry hname =>
      split at h
      · cases h
      next hordinary =>
      simp only [Bool.or_eq_true, decide_eq_true_eq, not_or] at hordinary
      obtain ⟨⟨hslash, hdot⟩, hup⟩ := hordinary
      cases h
      exact ⟨hpath, hslash, directory, name, hdirectory, hname, hdot, hup, hentry, rfl⟩
    · cases h
  · rintro ⟨hpath, hslash, directory, name, hdirectory, hname, hdot, hup, hentry, rfl⟩
    unfold names at hdirectory hname
    rw [if_neg hpath, hdirectory]
    dsimp only
    rw [hentry, hname]
    simp only [hslash, hdot, hup, decide_false, Bool.or_self, Bool.false_eq_true, if_false]

theorem SameWays.nameOf (h : SameWays changed d d') (hname : d.nameOf path = .ok place) :
    d'.nameOf path = .ok place := by
  obtain ⟨hpath, hslash, directory, name, hdirectory, hlast, hdot, hup, hentry, rfl⟩ :=
    nameOf_eq_ok_iff.mp hname
  refine nameOf_eq_ok_iff.mpr ⟨hpath, hslash, directory, name, ?_, hlast, hdot, hup,
    h.directory hentry, rfl⟩
  rw [h.same.here]
  exact h.follow hdirectory

/-- A component that is no link leads on from where a path leads. -/
theorem walk_concat {onward : Place → List String → Except FileError Place} {component : String}
    (hp : d.entry? p = some .directory)
    (hlink : ∀ text, d.entry? (move p component) ≠ some (.link text))
    (honward : ∀ start components, onward start components = .ok p →
      onward start (components ++ [component]) = .ok (move p component))
    {start : Place} {components : List String} (hwalk : d.walk onward start components = .ok p) :
    d.walk onward start (components ++ [component]) = .ok (move p component) := by
  induction components generalizing start with
  | nil =>
    cases hwalk
    rw [List.nil_append, walk, hp]
    dsimp only
    split
    · next text htext => exact absurd htext (hlink text)
    · rfl
  | cons other rest ih =>
    rw [List.cons_append]
    unfold walk at hwalk ⊢
    split at hwalk
    · cases hwalk
    · cases hwalk
    · cases hwalk
    · split at hwalk
      · rw [← List.append_assoc]
        exact honward _ _ hwalk
      · exact ih hwalk

theorem follow_concat {links : Nat} {component : String} {start : Place} {components : List String}
    (hp : d.entry? p = some .directory)
    (hlink : ∀ text, d.entry? (move p component) ≠ some (.link text))
    (hfollow : d.follow links start components = .ok p) :
    d.follow links start (components ++ [component]) = .ok (move p component) := by
  induction links generalizing start components with
  | zero =>
    refine walk_concat hp hlink (fun _ _ hend => ?_) hfollow
    cases hend
  | succ links ih => exact walk_concat hp hlink (fun _ _ hon => ih hon) hfollow

/-- A path whose last name is no link leads to that name. -/
theorem lead_of_nameOf (h : d.nameOf path = .ok place)
    (hlink : ∀ text, d.entry? place ≠ some (.link text)) : d.lead path = .ok place := by
  obtain ⟨hpath, hslash, directory, name, hdirectory, hname, hdot, hup, hentry, rfl⟩ :=
    nameOf_eq_ok_iff.mp h
  rw [names_eq hpath hslash] at hdirectory hname
  have hcomponents : Path.components path =
      (Path.components path).reverse.tail.reverse ++ [name] := by
    obtain ⟨rest, hrest⟩ := List.head?_eq_some_iff.mp hname
    rw [hrest, List.tail_cons, ← List.reverse_cons, ← hrest, List.reverse_reverse]
  have hidle : Path.isIdle name = false := by
    have hempty : name ≠ "" := by
      rintro rfl
      refine Path.getLast?_components hpath hslash ?_
      rw [List.getLast?_eq_head?_reverse, hname]
    simp [Path.isIdle, hempty, hdot]
  have hmove : move directory name = directory ++ [name] := by
    rw [move, hidle, if_neg (by simp), if_neg hup]
  rw [← hmove] at hlink ⊢
  rw [lead, if_neg hpath, hcomponents]
  exact follow_concat hentry hlink hdirectory

/-- Where a file can be written. -/
theorem target_eq_ok_iff : d.target path = .ok place ↔
    (∃ name, d.nameOf path = .ok name) ∧ d.lead path = .ok place ∧ d.Terminal place ∧
      d.writtenTo place ∉ d.locked := by
  unfold target
  simp only [bind_eq_ok_iff]
  constructor
  · rintro ⟨name, hname, p, hlead, h⟩
    have hend : d.Terminal p ∧ (if d.writtenTo p ∈ d.locked then throw .denied else pure p :
        Except FileError Place) = .ok place := by
      split at h
      · cases h
      · cases h
      · next hdirectory hlink =>
        refine ⟨?_, h⟩
        cases hentry : d.entry? p with
        | none => exact .inl hentry
        | some entry =>
          cases entry with
          | file bytes => exact .inr ⟨bytes, hentry⟩
          | directory => exact absurd hentry hdirectory
          | link text => exact absurd hentry (hlink text)
    obtain ⟨hend, h⟩ := hend
    split at h
    · cases h
    · next hlocked =>
      cases h
      exact ⟨⟨name, hname⟩, hlead, hend, hlocked⟩
  · rintro ⟨⟨name, hname⟩, hlead, hend, hlocked⟩
    refine ⟨name, hname, place, hlead, ?_⟩
    rcases hend with hentry | ⟨bytes, hentry⟩
    all_goals
      rw [hentry]
      exact if_neg hlocked

theorem writtenTo_write (hp : p ≠ place) (bytes : List UInt8) :
    (d.write place bytes).writtenTo p = d.writtenTo p := by
  have hnone : Disk.entry? (d.write place bytes) p = none ↔ d.entry? p = none := by
    by_cases hfile : d.SameFile place p
    · rcases hfile with rfl | ⟨number, -, hnode⟩
      · exact absurd rfl hp
      · have hnode' : (d.write place bytes).node? p = some (.file number) := by
          rw [node?_write (isDirectory_of_node? hnode), if_neg hp, hnode]
        simp [entry?_of_file hnode, entry?_of_file hnode']
    · rw [entry?_write_of_not hfile]
  simp only [writtenTo, hnone]

/-- A file that is written does not decide where others can be written. -/
theorem target_write_iff {path' : String} (h : d.target path' = .ok place) (hp : p ≠ place)
    (bytes : List UInt8) : (d.write place bytes).target path = .ok p ↔ d.target path = .ok p := by
  obtain ⟨-, -, hend, -⟩ := target_eq_ok_iff.mp h
  have hways := sameWays_write hend bytes
  rw [target_eq_ok_iff, target_eq_ok_iff, writtenTo_write hp]
  constructor
  · rintro ⟨⟨name, hname⟩, hlead, hend, hlocked⟩
    exact ⟨⟨name, hways.symm.nameOf hname⟩, hways.symm.lead hlead, hways.symm.terminal hend,
      hlocked⟩
  · rintro ⟨⟨name, hname⟩, hlead, hend, hlocked⟩
    exact ⟨⟨name, hways.nameOf hname⟩, hways.lead hlead, hways.terminal hend, hlocked⟩

theorem target_of_write {path' : String} (h : d.target path' = .ok place)
    (htarget : (d.write place bytes).target path = .ok p) : d.target path = .ok p := by
  by_cases hp : p = place
  · subst hp
    obtain ⟨-, -, hend, hlocked⟩ := target_eq_ok_iff.mp h
    have hways := (sameWays_write hend bytes).symm
    obtain ⟨⟨name, hname⟩, hlead, -, -⟩ := target_eq_ok_iff.mp htarget
    exact target_eq_ok_iff.mpr ⟨⟨name, hways.nameOf hname⟩, hways.lead hlead, hend, hlocked⟩
  · exact (target_write_iff h hp bytes).mp htarget

/-! ### Giving up a file -/

theorem sameBut_unlink (d : Disk) (path : String) :
    d.SameBut (fun p => d.nameOf path = .ok p) (d.unlink path) := by
  unfold unlink
  split
  · exact ⟨rfl, rfl, rfl, fun _ _ => rfl⟩
  · next name hname =>
    split
    · exact ⟨rfl, rfl, rfl, fun _ _ => rfl⟩
    · exact (d.sameBut_remove name).mono fun p hp => hp ▸ hname

/-- A file that is given up is changed under all of its names, and a name is removed. -/
theorem sameBut_abandon (h : d.Terminal place) (path : String) (written : List UInt8) :
    d.SameBut (fun p => d.SameFile place p ∨ d.nameOf path = .ok p)
      (d.abandon path place written) := by
  have hways := sameWays_write h ((d.device place).fitting written)
  refine (hways.same.mono fun p hp => .inl hp).trans ?_
  exact (sameBut_unlink _ path).mono fun p hp => .inr (hways.symm.nameOf hp)

/-- A file whose name can be removed is not there after it was given up. -/
theorem locate_abandon (h : d.Terminal place) (hname : d.nameOf path = .ok place)
    (hlocked : place.dropLast ∉ d.locked) (written : List UInt8) :
    (d.abandon path place written).locate path = .error .notFound := by
  have hways := sameWays_write h ((d.device place).fitting written)
  have hplace := hways.terminal h
  have habandon : d.abandon path place written = (d.spill place written).remove place := by
    unfold abandon unlink
    rw [show (d.spill place written).nameOf path = .ok place from hways.nameOf hname]
    exact if_neg hlocked
  rw [habandon]
  have hremoved : SameWays (· = place) (d.spill place written)
      ((d.spill place written).remove place) := by
    refine ⟨sameBut_remove _ place, ?_, ?_⟩
    · rintro p rfl
      exact hplace
    · rintro p rfl
      exact .inl (entry?_remove hplace.isDirectory)
  refine locate_of_none (hremoved.lead (hways.lead ?_)) (entry?_remove hplace.isDirectory)
  exact lead_of_nameOf hname h.ne_link

end Disk

end Assembler6502
