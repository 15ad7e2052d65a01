/-
References to anonymous labels lead to the nearest one.

The first pass records each `@` with its address and the level of nesting on
which it stands.  As long as the address never falls, the marks of a level are
in ascending order, and then looking through them from the one end or the other
finds the nearest mark.

* **`Assembly.run_level`** — a level holds the marks of the statements that were
  carried out on it, in order;
* **`Statement.ascends`** — the address does not fall at a statement;
* **`Assembly.visits_ascend`** — if it never falls, the statements come in the
  order of their addresses;
* **`AnonymousLabels.Nearest`** — what references lead to, which holds of marks in
  ascending order (`nearest_of_pairwise`);
* **`Session.anonymous_nearest`** — all of it for every first pass.

Design notes.  A scope is never deeper than there are levels, so `record` drops
no mark.  An origin that is refused and an instruction that has no encoding
leave the address alone, so nothing is asked of them.
-/
import Assembler6502.Proofs.Assembly.Refusals
import Assembler6502.Proofs.Machine.Encoding
import Assembler6502.Proofs.Session.Faults

namespace Assembler6502

/-! ### Looking through marks in order -/

/-- In a list that is ordered by `R`, what is found first comes before all else that could be
found. -/
theorem find?_eq_some_iff_of_pairwise {α : Type} {R : α → α → Prop} (hrefl : ∀ a, R a a)
    (hantisymm : ∀ a b, R a b → R b a → a = b) {p : α → Bool} {l : List α} (h : l.Pairwise R)
    {a : α} : l.find? p = some a ↔ a ∈ l ∧ p a = true ∧ ∀ b ∈ l, p b = true → R a b := by
  induction h with
  | nil => simp
  | @cons b l hb _ ih =>
    rw [List.find?_cons]
    cases hp : p b with
    | true =>
      -- the head is found, and by the order nothing else is the least
      constructor
      · rintro ⟨⟩
        refine ⟨List.mem_cons_self, hp, fun c hc _ => ?_⟩
        rcases List.mem_cons.mp hc with rfl | hc
        · exact hrefl c
        · exact hb c hc
      · rintro ⟨hmem, -, hleast⟩
        rcases List.mem_cons.mp hmem with rfl | hmem
        · rfl
        · exact congrArg some (hantisymm b a (hb a hmem) (hleast b List.mem_cons_self hp))
    | false =>
      dsimp only
      rw [ih]
      constructor
      · rintro ⟨hmem, ha, hleast⟩
        refine ⟨List.mem_cons_of_mem _ hmem, ha, fun c hc hpc => ?_⟩
        rcases List.mem_cons.mp hc with rfl | hc
        · rw [hp] at hpc
          cases hpc
        · exact hleast c hc hpc
      · rintro ⟨hmem, ha, hleast⟩
        refine ⟨?_, ha, fun c hc hpc => hleast c (List.mem_cons_of_mem _ hc) hpc⟩
        rcases List.mem_cons.mp hmem with rfl | hmem
        · rw [hp] at ha
          cases ha
        · exact hmem

namespace AnonymousLabels

variable {addresses : List Int32} {address : Int32}

/-- A reference forward leads to the least mark beyond the address. -/
theorem resolveForward_eq_some_iff (h : addresses.Pairwise (· ≤ ·)) {a : Int32} :
    resolveForward addresses address = some a ↔
      a ∈ addresses ∧ address < a ∧ ∀ b ∈ addresses, address < b → a ≤ b := by
  unfold resolveForward
  rw [find?_eq_some_iff_of_pairwise Int32.le_refl (fun _ _ => Int32.le_antisymm) h]
  simp only [gt_iff_lt, decide_eq_true_eq]

theorem resolveForward_eq_none_iff :
    resolveForward addresses address = none ↔ ∀ b ∈ addresses, b ≤ address := by
  unfold resolveForward
  rw [List.find?_eq_none]
  simp only [gt_iff_lt, decide_eq_true_eq, Int32.not_lt]

/-- A reference back leads to the greatest mark that is not beyond the address, if there is one. -/
theorem exists_resolveBackward (h : addresses.Pairwise (· ≤ ·))
    (hbefore : ∃ b ∈ addresses, b ≤ address) :
    ∃ a ∈ addresses, resolveBackward addresses address = some a ∧ a ≤ address ∧
      ∀ b ∈ addresses, b ≤ address → b ≤ a := by
  obtain ⟨b, hb, hle⟩ := hbefore
  cases hfind : addresses.reverse.find? (fun mark => mark ≤ address) with
  | none =>
    rw [List.find?_eq_none] at hfind
    exact absurd (decide_eq_true hle) (hfind b (List.mem_reverse.mpr hb))
  | some a =>
    -- the marks are searched from the last on, so the order is turned round
    have hnearest := (find?_eq_some_iff_of_pairwise (R := fun b c => c ≤ b) Int32.le_refl
      (fun _ _ hb hc => Int32.le_antisymm hc hb) (List.pairwise_reverse.mpr h)).mp hfind
    simp only [List.mem_reverse, decide_eq_true_eq] at hnearest
    refine ⟨a, hnearest.1, ?_, hnearest.2⟩
    rw [resolveBackward, hfind, Option.some_or]

/-- If all marks are beyond the address, a reference back leads to the last one. -/
theorem resolveBackward_of_above (h : ∀ b ∈ addresses, address < b) :
    resolveBackward addresses address = addresses.getLast? := by
  unfold resolveBackward
  have hnone : addresses.reverse.find? (fun mark => mark ≤ address) = none := by
    rw [List.find?_eq_none]
    intro b hb
    simpa [Int32.not_le] using h b (List.mem_reverse.mp hb)
  rw [hnone, Option.none_or]

theorem resolveBackward_eq_none_iff :
    resolveBackward addresses address = none ↔ addresses = [] := by
  unfold resolveBackward
  rw [Option.or_eq_none_iff, List.getLast?_eq_none_iff]
  constructor
  · exact And.right
  · rintro rfl
    exact ⟨rfl, rfl⟩

/-- References from any address lead to the nearest of the marks. -/
structure Nearest (marks : List Int32) : Prop where
  /-- Forward, the least mark above the address. -/
  forward : ∀ address a, resolveForward marks address = some a ↔
    a ∈ marks ∧ address < a ∧ ∀ b ∈ marks, address < b → a ≤ b
  forward_none : ∀ address, resolveForward marks address = none ↔ ∀ b ∈ marks, b ≤ address
  /-- Backward, the greatest mark that is not above. -/
  backward : ∀ address, (∃ b ∈ marks, b ≤ address) →
    ∃ a ∈ marks, resolveBackward marks address = some a ∧ a ≤ address ∧
      ∀ b ∈ marks, b ≤ address → b ≤ a
  /-- The last mark, if all are above. -/
  backward_above : ∀ address, (∀ b ∈ marks, address < b) →
    resolveBackward marks address = marks.getLast?
  backward_none : ∀ address, resolveBackward marks address = none ↔ marks = []

theorem nearest_of_pairwise {marks : List Int32} (h : marks.Pairwise (· ≤ ·)) : Nearest marks where
  forward _ _ := resolveForward_eq_some_iff h
  forward_none _ := resolveForward_eq_none_iff
  backward _ := exists_resolveBackward h
  backward_above _ := resolveBackward_of_above
  backward_none _ := resolveBackward_eq_none_iff

end AnonymousLabels

/-! ### The marks of a pass -/

namespace Assembly

/-- The addresses that statements mark on a level, in order. -/
def marked (d : Nat) (vs : List Visit) : List Int32 :=
  (vs.filter fun v => v.statement = .anonymousLabel ∧ v.before.scopes.depth = d).map
    (·.before.address)

variable {setting : Setting} {statement : Statement} {s t : State} {d : Nat}

theorem marked_append (vs ws : List Visit) : marked d (vs ++ ws) = marked d vs ++ marked d ws := by
  simp [marked]

theorem marked_eq_nil (h : statement ≠ .anonymousLabel) (before : State) :
    marked d [⟨before, statement⟩] = [] := by
  simp [marked, h]

/-- What a statement of the first pass adds to a level. -/
theorem Effect.level (h : Effect setting statement s t) (hpass : setting.pass = .first)
    {before : State} (hpath : s.scopes.path = before.scopes.path)
    (haddress : s.address = before.address) :
    t.anonymous.level d = s.anonymous.level d ++ marked d [⟨before, statement⟩] := by
  cases h with
  | anonymousLabel =>
    -- scopes are never deeper than there are levels, so the mark is not dropped
    have hdepth : s.scopes.depth = before.scopes.depth := congrArg List.length hpath
    have hbounded : s.scopes.depth < levelLimit := s.scopes.bounded
    rw [if_pos hpass]
    dsimp only
    rw [AnonymousLabels.level_record hbounded, hdepth, haddress]
    by_cases hlevel : d = before.scopes.depth
    · simp [marked, hlevel]
    · simp [marked, hlevel, Ne.symm hlevel]
  | label | openScope => rw [State.labelled_eq, marked_eq_nil (by simp), List.append_nil]
  | _ => rw [marked_eq_nil (by simp), List.append_nil]

/-- A statement that is refused marks nothing and moves nothing. -/
theorem Refusal.unmoved {error : StatementError} (h : Refusal setting s statement error t) :
    statement ≠ .anonymousLabel ∧ t.anonymous = s.anonymous ∧ t.address = s.address := by
  cases h with
  | taken label =>
    refine ⟨?_, rfl, rfl⟩
    rintro rfl
    cases label
  | nesting =>
    rw [State.labelled_eq]
    exact ⟨by simp, rfl, rfl⟩
  | _ => exact ⟨by simp, rfl, rfl⟩

/-- A step that finds no statement moves nothing. -/
theorem unmoved_of_visit?_eq_none (h : step setting s = .next t) (hnone : visit? setting s = none) :
    t.anonymous = s.anonymous ∧ t.address = s.address := by
  unfold step at h
  split at h
  · obtain ⟨files, -, rfl⟩ := endFile_next h
    exact ⟨rfl, rfl⟩
  · cases h
    exact ⟨rfl, rfl⟩
  · next hend hundefined hparse =>
    rw [visit?_of_parse hparse hend hundefined] at hnone
    cases hnone
  · split at h
    · cases h
    · cases h
      exact ⟨rfl, rfl⟩

theorem anonymous_of_finished (h : step setting s = .finished t) : t.anonymous = s.anonymous := by
  unfold step at h
  split at h
  · unfold endFile at h
    split at h
    · cases h
    · cases h
      unfold State.finish
      split <;> rfl
  · cases h
  · unfold carryOut at h
    split at h
    · cases h
    · split at h <;> cases h
    · cases h
  · split at h <;> cases h

theorem step_level (hpass : setting.pass = .first) (h : step setting s = .next t) :
    t.anonymous.level d = s.anonymous.level d ++ marked d (visit? setting s).toList := by
  obtain ⟨hnone, -⟩ | ⟨statement, r, hsome, hsame, hcarried⟩ := step_cases h
  · rw [hnone, (unmoved_of_visit?_eq_none h hnone).1]
    exact (List.append_nil _).symm
  · rw [hsome]
    rcases hcarried with heffect | ⟨error, u, hrefusal, rfl⟩
    · exact heffect.level hpass hsame.path rfl
    · obtain ⟨hne, hanonymous, -⟩ := hrefusal.unmoved
      show u.anonymous.level d = _ ++ marked d [_]
      rw [marked_eq_nil hne, List.append_nil, hanonymous]
      rfl

/-- At the end of the first pass a level holds the marks that were set on it, in order. -/
theorem run_level (hpass : setting.pass = .first) (h : run setting s = .ok () t) :
    t.anonymous.level d = s.anonymous.level d ++ marked d (visits setting s) := by
  fun_induction run setting s with
  | case1 s u hstep ih =>
    rw [ih h, step_level hpass hstep, visits_of_next hstep, marked_append, List.append_assoc]
  | case2 s u hstep =>
    cases h
    rw [visits_of_finished hstep, anonymous_of_finished hstep]
    exact (List.append_nil _).symm
  | case3 s fault u hstep => cases h

/-! ### Addresses that never fall -/

end Assembly

/-- The bytes that the first pass counts for a statement: none for an instruction that has no
encoding. -/
def Statement.counted (address : Int32) : Statement → Nat
  | .instruction i => ((i.encode .first address).toOption.map List.length).getD 0
  | statement => statement.size

/-- The address does not fall at the statement: an origin that the first pass takes lies ahead, and
bytes end below `0x80000000`, beyond which addresses start again from below. -/
def Statement.ascends (address : Int32) : Statement → Bool
  | .origin target => target < 0x100 || address ≤ target
  | statement => address.toInt + statement.counted address < 0x80000000

theorem le_add_ofNat {v : Int32} {n : Nat} (hv : 0 ≤ v.toInt) (h : v.toInt + n < 0x80000000) :
    v ≤ v + Int32.ofNat n := by
  rw [Int32.le_iff_toInt_le, toInt_add_ofNat hv h]
  omega

namespace Assembly

variable {setting : Setting} {statement : Statement} {s t : State} {d : Nat}

theorem Effect.le_address (h : Effect setting statement s t) (hpass : setting.pass = .first)
    (hlow : 0 ≤ s.address.toInt) (hascends : statement.ascends s.address = true) :
    s.address ≤ t.address := by
  cases h with
  | @instruction i s bytes image code =>
    rw [hpass] at code
    have hcounted : Statement.counted s.address (.instruction i) = bytes.length := by
      rw [Statement.counted, code]
      rfl
    have hroom := of_decide_eq_true hascends
    rw [hcounted] at hroom
    exact le_add_ofNat hlow hroom
  | bytes => exact le_add_ofNat hlow (of_decide_eq_true hascends)
  | words =>
    rw [length_wordBytes]
    exact le_add_ofNat hlow (of_decide_eq_true hascends)
  | firstOrigin _ high =>
    rw [Statement.ascends, decide_eq_false high, Bool.false_or] at hascends
    exact of_decide_eq_true hascends
  | secondOrigin pass =>
    rw [hpass] at pass
    cases pass
  | label | openScope =>
    rw [State.labelled_eq]
    exact Int32.le_refl _
  | _ => exact Int32.le_refl _

theorem step_le_address (hpass : setting.pass = .first) (h : step setting s = .next t)
    (hlow : 0 ≤ s.address.toInt)
    (hascends : ∀ v ∈ visit? setting s, v.statement.ascends s.address = true) :
    s.address ≤ t.address := by
  obtain ⟨hnone, -⟩ | ⟨statement, r, hsome, -, hcarried⟩ := step_cases h
  · rw [(unmoved_of_visit?_eq_none h hnone).2]
    exact Int32.le_refl _
  · rcases hcarried with heffect | ⟨error, u, hrefusal, rfl⟩
    · exact heffect.le_address hpass hlow (hascends _ hsome)
    · show s.address ≤ u.address
      rw [hrefusal.unmoved.2.2]
      exact Int32.le_refl _

theorem before_of_visit? {v : Visit} (h : visit? setting s = some v) : v.before = s := by
  unfold visit? at h
  split at h <;> cases h
  rfl

/-- If the address never falls, the statements come in the order of their addresses. -/
theorem visits_ascend (hpass : setting.pass = .first) (hlow : 0 ≤ s.address.toInt)
    (hascends : ∀ v ∈ visits setting s, v.statement.ascends v.before.address = true) :
    (visits setting s).Pairwise (fun v w => v.before.address ≤ w.before.address) ∧
      ∀ v ∈ visits setting s, s.address ≤ v.before.address := by
  -- along the run the address stays nonnegative, so that a sum below the bound has not wrapped
  fun_induction visits setting s with
  | case1 s t hstep ih =>
    have hle : s.address ≤ t.address := by
      refine step_le_address hpass hstep hlow fun v hv => ?_
      rw [← before_of_visit? hv]
      exact hascends v (List.mem_append_left _ (Option.mem_toList.mpr hv))
    have hlow' : 0 ≤ t.address.toInt := Int.le_trans hlow (Int32.le_iff_toInt_le.mp hle)
    obtain ⟨hpairwise, hlater⟩ := ih hlow' fun v hv => hascends v (List.mem_append_right _ hv)
    cases hvisit : visit? setting s with
    | none => exact ⟨hpairwise, fun v hv => Int32.le_trans hle (hlater v hv)⟩
    | some v =>
      have hbefore := before_of_visit? hvisit
      refine ⟨List.Pairwise.cons (fun w hw => ?_) hpairwise, fun w hw => ?_⟩
      · rw [hbefore]
        exact Int32.le_trans hle (hlater w hw)
      · rcases List.mem_cons.mp hw with rfl | hw
        · rw [hbefore]
          exact Int32.le_refl _
        · exact Int32.le_trans hle (hlater w hw)
  | case2 | case3 => exact ⟨.nil, fun v hv => absurd hv List.not_mem_nil⟩

theorem marked_pairwise {vs : List Visit}
    (h : vs.Pairwise fun v w => v.before.address ≤ w.before.address) :
    (marked d vs).Pairwise (· ≤ ·) :=
  List.pairwise_map.mpr (h.filter _)

end Assembly

open Assembler6502.Assembly

namespace Session

/-- The first pass comes to its end. -/
theorem exists_run_first (s : Session) (disk : Disk) (source : Source) :
    ∃ t, run (s.setting .first disk) (s.reset.initial source none) = .ok () t := by
  have hcalm : Calm (fun _ => True) (s.reset.initial source none) :=
    ⟨fun _ hd => absurd hd List.not_mem_nil, fun _ he => by cases he⟩
  obtain ⟨t, hrun, -⟩ := run_calm (fun _ _ _ => trivial) (fun _ _ => trivial) hcalm
  exact ⟨t, hrun⟩

/-- References to anonymous labels lead to the nearest one.  At the end of a first pass, each level
holds the addresses of the `@` statements that were carried out on it, in order, and no statement is
too deep to have a level.  If no origin moves the address backwards and no address wraps around, the
addresses of each level ascend.  Then, whatever the address of a reference, forward it leads to the
least mark above, and to none exactly if there is none; backward it leads to the greatest mark that
is not above if there is one, to the last mark if all are above, and to none exactly if the level
has no marks. -/
theorem anonymous_nearest (s : Session) (disk : Disk) (source : Source) :
    ∃ t, run (s.setting .first disk) (s.reset.initial source none) = .ok () t ∧
      (∀ d, t.anonymous.level d =
        marked d (visits (s.setting .first disk) (s.reset.initial source none))) ∧
      (∀ v ∈ visits (s.setting .first disk) (s.reset.initial source none),
        v.before.scopes.depth < levelLimit) ∧
      ((∀ v ∈ visits (s.setting .first disk) (s.reset.initial source none),
          v.statement.ascends v.before.address = true) →
        ∀ d, (t.anonymous.level d).Pairwise (· ≤ ·) ∧
          AnonymousLabels.Nearest (t.anonymous.level d)) := by
  obtain ⟨t, hrun⟩ := s.exists_run_first disk source
  have hlevel : ∀ d, t.anonymous.level d =
      marked d (visits (s.setting .first disk) (s.reset.initial source none)) :=
    fun d => run_level rfl hrun
  refine ⟨t, hrun, hlevel, fun v _ => v.before.scopes.bounded, fun hascends d => ?_⟩
  have hlow : 0 ≤ (s.reset.initial source none).address.toInt := by
    show 0 ≤ s.options.origin.toUInt32.toInt32.toInt
    rw [toInt_word]
    exact Int.natCast_nonneg _
  have hsorted : (t.anonymous.level d).Pairwise (· ≤ ·) := by
    rw [hlevel]
    exact marked_pairwise (visits_ascend rfl hlow hascends).1
  exact ⟨hsorted, AnonymousLabels.nearest_of_pairwise hsorted⟩

/-- Marks around and inside of a scope, and one behind an origin. -/
def markedSource : Source :=
  ⟨"main", none, Byte.ofChars "@ nop\n.proc p\n@ nop\n@ nop\n.endproc\n*=$1010\n@ nop\n".toList⟩

theorem anonymous_nearest_nested :
    ∃ t, run ((start {}).setting .first (.empty [])) ((start {}).reset.initial markedSource none) =
        .ok () t ∧
      t.anonymous.level 0 = [0x1000, 0x1010] ∧ t.anonymous.level 1 = [0x1001, 0x1002] ∧
      AnonymousLabels.resolveForward (t.anonymous.level 0) 0x1001 = some 0x1010 ∧
      AnonymousLabels.resolveBackward (t.anonymous.level 1) 0x1000 = some 0x1002 := by
  obtain ⟨⟨vs, result⟩, hwalk, hvs⟩ := Option.map_eq_some_iff.mp
    (show (walk ((start {}).setting .first (.empty [])) 12
        ((start {}).reset.initial markedSource none)).map
          (fun x => (marked 0 x.1, marked 1 x.1,
            x.1.all fun v => v.statement.ascends v.before.address)) =
        some ([0x1000, 0x1010], [0x1001, 0x1002], true) by decide +kernel)
  obtain ⟨hvisits, -⟩ := walk_eq_some hwalk
  obtain ⟨t, hrun, hlevel, -, hnearest⟩ := anonymous_nearest (start {}) (.empty []) markedSource
  simp only [Prod.mk.injEq, List.all_eq_true] at hvs
  obtain ⟨hzero, hone, hascends⟩ := hvs
  rw [hvisits] at hlevel hnearest
  rw [← hlevel] at hzero hone
  have hforward := (hnearest hascends 0).2.forward 0x1001 0x1010
  have hbackward := (hnearest hascends 1).2.backward_above 0x1000
  rw [hzero] at hforward
  rw [hone] at hbackward
  refine ⟨t, hrun, hzero, hone, ?_, ?_⟩
  · rw [hzero]
    refine hforward.mpr ⟨List.mem_cons_of_mem _ List.mem_cons_self, by decide, ?_⟩
    exact List.forall_mem_cons.mpr ⟨by decide, List.forall_mem_cons.mpr ⟨by decide, by simp⟩⟩
  · rw [hone]
    refine hbackward ?_
    exact List.forall_mem_cons.mpr ⟨by decide, List.forall_mem_cons.mpr ⟨by decide, by simp⟩⟩

end Session

end Assembler6502
