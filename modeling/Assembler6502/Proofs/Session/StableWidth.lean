/-
Sources of which both passes see the same addresses.

A source without scopes and assignments has one width for each statement, if no
direct operand depends on a label ahead in another way than naming it.  Then
both passes come to every statement at the same address, by one induction over
both: the addresses agree so far, so the labels before have the addresses that
the second pass finds, so the next statement has the same width.

* **`widthsStable`** — what is asked of the statements, by their lexemes;
* **`Clean.high`** — labels and marks of the first pass lie above the zero page;
* **`Together.level`** — the addresses agree at every statement;
* **`stable_addresses`** — this for a run that succeeds.

Design notes.  Labels above the zero page are what makes a name ahead safe: its
placeholder and its address both have a high byte.  The first pass refuses
origins in the zero page, so it is enough to start above it and not to come
round to it again.
-/
import Assembler6502.Proofs.Assembly.Definitions
import Assembler6502.Proofs.Session.Lockstep
import Assembler6502.Proofs.Statement.Width

namespace Assembler6502

theorem aboveZeroPage_iff {v : Int32} : AboveZeroPage v ↔ 0x100 ≤ v.toInt :=
  Int32.le_iff_toInt_le

/-- Above the zero page a statement leads on above it, unless it is an origin. -/
theorem Statement.behind_above {statement : Statement} {address : Int32}
    (h : AboveZeroPage address) (hrange : address.toInt + statement.size < 0x80000000)
    (horigin : ∀ target, statement = .origin target → AboveZeroPage target) :
    AboveZeroPage (statement.behind address) := by
  have hbehind : AboveZeroPage (address + Int32.ofNat statement.size) := by
    rw [aboveZeroPage_iff] at h ⊢
    rw [toInt_add_ofNat (by omega) hrange]
    omega
  cases statement with
  | origin target => exact horigin target rfl
  | _ => exact hbehind

theorem Statement.target?_of_widthStable {labels : List String} {opening : List (Lexeme Spelling)}
    {statement : Statement} (h : statement.widthStable labels opening = true) :
    statement.target? = none := by
  cases statement with
  | assign _ _ _ => cases h
  | _ => rfl

theorem Statement.pathBehind_of_widthStable {labels : List String}
    {opening : List (Lexeme Spelling)} {statement : Statement}
    (h : statement.widthStable labels opening = true) : statement.pathBehind [] = [] := by
  cases statement with
  | openScope _ => cases h
  | _ => rfl

namespace Assembly

variable {setting a b : Setting} {statement : Statement} {s t s' t' : State}
  {vs ws : List Visit} {labels : List String}

/-! ### Addresses of the first pass -/

/-- All addresses that a pass has come upon lie above the zero page. -/
structure State.High (s : State) : Prop where
  address : AboveZeroPage s.address
  values : ∀ scope name d, s.scopes.definitionAt scope name = some d → AboveZeroPage d.value
  marks : ∀ mark ∈ s.anonymous.marks, AboveZeroPage mark.2

/-- The first pass records a mark, and the second one leaves the marks as they are. -/
theorem Effect.anonymous (h : Effect setting statement s t) :
    t.anonymous = s.anonymous ∨
      setting.pass = .first ∧ t.anonymous = s.anonymous.record s.scopes.depth s.address := by
  cases h with
  | anonymousLabel =>
    by_cases hpass : setting.pass = .first
    · exact .inr ⟨hpass, if_pos hpass⟩
    · exact .inl (if_neg hpass)
  | label => exact .inl (by rw [State.labelled_eq])
  | openScope => exact .inl (by rw [State.labelled_eq])
  | _ => exact .inl rfl

theorem Effect.origin_above {target : Int32} (h : Effect setting (.origin target) s t)
    (hpass : setting.pass = .first) : AboveZeroPage target := by
  cases h with
  | firstOrigin _ high => exact Int32.not_lt.mp high
  | secondOrigin pass =>
    rw [hpass] at pass
    cases pass

theorem Effect.high (h : Effect setting statement s t) (hpass : setting.pass = .first)
    (htarget : statement.target? = none) (hrange : s.address.toInt + statement.size < 0x80000000)
    (hs : s.High) : t.High where
  address := by
    rw [h.address]
    refine Statement.behind_above hs.address hrange ?_
    rintro target rfl
    exact h.origin_above hpass
  values scope name d hd := by
    rw [h.definitionAt] at hd
    split at hd
    · next bound x hbinding =>
      split at hd
      · cases hd
        -- what is bound is a label at the address
        rcases Statement.label?_or_target? hbinding with ⟨-, hlabel⟩ | hassign
        · rw [hpass, Statement.binding?_of_label? _ hlabel] at hbinding
          cases hbinding
          exact hs.address
        · rw [htarget] at hassign
          cases hassign
      · exact hs.values scope name d hd
    · exact hs.values scope name d hd
  marks mark hmark := by
    rcases h.anonymous with heq | ⟨-, heq⟩
    · rw [heq] at hmark
      exact hs.marks mark hmark
    · rw [heq, AnonymousLabels.record] at hmark
      split at hmark
      · rcases List.mem_append.mp hmark with hold | hnew
        · exact hs.marks mark hold
        · rw [List.mem_singleton.mp hnew]
          exact hs.address
      · exact hs.marks mark hmark

theorem State.High.resume (hs : s.High) {r : Reading} (hr : s.reading.SameValues r) :
    (s.resume r).High where
  address := hs.address
  values scope name d hd := hs.values scope name d ((hr.definitionAt _ _).symm.trans hd)
  marks := hs.marks

/-- A first pass that starts above the zero page and does not come round stays above it. -/
theorem Clean.high (h : Clean setting s vs t) (hpass : setting.pass = .first)
    (hno : ∀ v ∈ vs, v.statement.target? = none)
    (hrange : ∀ v ∈ vs, v.before.address.toInt + v.statement.size < 0x80000000) (hs : s.High) :
    t.High := by
  induction h with
  | finish parsed => exact hs.resume (Statement.parse_sameValues parsed)
  | close parsed _ _ ih =>
    have hr := hs.resume (Statement.parse_sameValues parsed)
    exact ih hno hrange ⟨hr.address, hr.values, hr.marks⟩
  | @carry s t u statement r vs parsed effect _ ih =>
    have hr := hs.resume (Statement.parse_sameValues parsed)
    have hbehind := hrange ⟨s, statement⟩ List.mem_cons_self
    exact ih (fun v hv => hno v (List.mem_cons_of_mem _ hv))
      (fun v hv => hrange v (List.mem_cons_of_mem _ hv))
      (effect.high hpass (hno _ List.mem_cons_self) hbehind hr)

/-! ### Both passes -/

/-- Whether all statements have the same width in both passes.  The labels of the statements before
are known. -/
def widthsStable (labels : List String) : List Visit → Bool
  | [] => true
  | v :: rest =>
    v.statement.widthStable labels v.before.files.current.cursor.opening &&
      widthsStable (v.statement.label?.toList ++ labels) rest

theorem target?_of_widthsStable (h : widthsStable labels vs = true) :
    ∀ v ∈ vs, v.statement.target? = none := by
  induction vs generalizing labels with
  | nil => exact fun _ hv => nomatch hv
  | cons v rest ih =>
    rw [widthsStable, Bool.and_eq_true] at h
    intro w hw
    rcases List.mem_cons.mp hw with rfl | hw
    · exact Statement.target?_of_widthStable h.1
    · exact ih h.2 w hw

/-- Both passes are at one address in the outermost scope.  The second one has the values and the
marks of the end of the first one, and the first one has those of the labels so far. -/
structure State.Level (labels : List String) (middle s t : State) : Prop where
  address : s.address = t.address
  outermost : s.scopes.path = []
  values : ∀ name, t.scopes.definitionAt [] name = middle.scopes.definitionAt [] name
  marks : t.anonymous = middle.anonymous
  known : ∀ name ∈ labels, ∃ v, s.scopes.definitionAt [] name = some ⟨.label, v⟩

variable {middle : State}

theorem State.Level.reading (h : State.Level labels middle s t) (habreast : s.Abreast t)
    (hmiddle : middle.High)
    (hkept : ∀ name d, s.scopes.definitionAt [] name = some d →
      middle.scopes.definitionAt [] name = some d) :
    s.reading.Level labels t.reading where
  toAbreast := habreast.reading
  outermost := h.outermost
  kept name d hd := (h.values name).trans (hkept name d hd)
  known := h.known
  high name d hd := hmiddle.values [] name d ((h.values name).symm.trans hd)

theorem State.Level.context (h : State.Level labels middle s t) (hmiddle : middle.High)
    (ha : a.pass = .first) (hb : b.pass = .second) : (s.context a).Level (t.context b) where
  first := ha
  second := hb
  address := h.address
  marks mark hmark := by
    obtain ⟨entry, hentry, rfl⟩ := List.mem_map.mp hmark
    refine hmiddle.marks entry ?_
    rw [← h.marks]
    exact (List.mem_filter.mp hentry).1

/-- What a branch leads to does not depend on its operand: it has one mode, or fails. -/
theorem Effect.behind_branch {i : Instruction} {statement' : Statement} {u v : State}
    (h : Effect a (.instruction i) s u) (h' : Effect b statement' t v)
    (halike : Statement.Alike (.instruction i) statement') (hbranch : i.mnemonic.isBranch = true)
    (address : Int32) :
    Statement.behind address (.instruction i) = statement'.behind address := by
  have hmode : ∀ {setting : Setting} {s t : State} {j : Instruction},
      Effect setting (.instruction j) s t → j.mnemonic.isBranch = true → j.mode = .relative := by
    intro setting s t j hj hbranch
    cases hj with
    | instruction code =>
      rw [Instruction.encode_eq] at code
      split at code
      · cases code
      · next opcode => exact Mnemonic.mode_of_isBranch hbranch opcode
  refine halike.behind_eq ?_ (fun _ _ h => nomatch h) address
  rintro _ j ⟨⟩ rfl
  rw [hmode h hbranch, hmode h' (halike.1 ▸ hbranch)]

theorem State.Level.resume (h : State.Level labels middle s t) {r r' : Reading}
    (hr : s.reading.SameValues r) (hr' : t.reading.SameValues r') :
    State.Level labels middle (s.resume r) (t.resume r') where
  address := h.address
  outermost := hr.path.trans h.outermost
  values name := (hr'.definitionAt _ _).trans (h.values name)
  marks := h.marks
  known name hname := by
    obtain ⟨v, hv⟩ := h.known name hname
    exact ⟨v, (hr.definitionAt _ _).trans hv⟩

/-- What one statement preserves, once it leads both passes to the same address. -/
theorem State.Level.step {statement' : Statement} {u v : State} {opening : List (Lexeme Spelling)}
    (h : State.Level labels middle s t) (ha : a.pass = .first) (hb : b.pass = .second)
    (hstable : statement.widthStable labels opening = true) (halike : statement.Alike statement')
    (heffect : Effect a statement s u) (heffect' : Effect b statement' t v)
    (haddress : u.address = v.address) :
    State.Level (statement.label?.toList ++ labels) middle u v where
  address := haddress
  outermost := by rw [heffect.path, h.outermost, Statement.pathBehind_of_widthStable hstable]
  values name := by
    rw [heffect'.definitionAt_eq, h.values]
    · intro hfirst
      rw [hb] at hfirst
      cases hfirst
    · intro _ htarget
      rw [← halike.target?, Statement.target?_of_widthStable hstable] at htarget
      cases htarget
  marks := by
    rcases heffect'.anonymous with heq | ⟨hfirst, -⟩
    · exact heq.trans h.marks
    · rw [hb] at hfirst
      cases hfirst
  known name hname := by
    rcases List.mem_append.mp hname with hnew | hold
    · have hlabel := Option.mem_toList.mp hnew
      have hbound := heffect.definitionAt [] name
      rw [ha, Statement.binding?_of_label? _ hlabel] at hbound
      dsimp only at hbound
      rw [if_pos ⟨h.outermost.symm, rfl⟩] at hbound
      exact ⟨_, hbound⟩
    · obtain ⟨x, hx⟩ := h.known name hold
      refine ⟨x, heffect.definition_kept (fun _ htarget => ?_) hx⟩
      rw [Statement.target?_of_widthStable hstable] at htarget
      cases htarget

/-- If all widths are stable, both passes come to every statement at the same address. -/
theorem Together.level (h : Together a b s t vs ws s' t') (ha : a.pass = .first)
    (hb : b.pass = .second) (hstable : widthsStable labels vs = true) (hhigh : s'.High)
    (hlevel : State.Level labels s' s t) :
    List.Forall₂ (fun v w => v.before.address = w.before.address) vs ws := by
  induction h generalizing labels with
  | finish => exact .nil
  | close _ parsed parsed' _ _ ih =>
    have hr := hlevel.resume (Statement.parse_sameValues parsed)
      (Statement.parse_sameValues parsed')
    exact ih hstable hhigh ⟨hr.address, hr.outermost, hr.values, hr.marks, hr.known⟩
  | @carry s t u v s' t' st st' r r' vs ws abreast parsed parsed' alike effect effect' rest ih =>
    refine .cons hlevel.address ?_
    have hfirst : Clean a s (⟨s, st⟩ :: vs) s' := .carry parsed effect rest.first
    have hno := target?_of_widthsStable hstable
    rw [widthsStable, Bool.and_eq_true] at hstable
    have hreading := hlevel.reading abreast hhigh fun name d hd => hfirst.definition_kept hno hd
    have hr := hlevel.resume (Statement.parse_sameValues parsed)
      (Statement.parse_sameValues parsed')
    -- a branch has one width whatever it is read as
    have hbehind : st.behind s.address = st'.behind s.address := by
      rcases Statement.parse_level (hlevel.context hhigh ha hb) hreading parsed parsed' hstable.1
        with hbehind | ⟨i, rfl, hbranch⟩
      · exact hbehind s.address
      · exact effect.behind_branch effect' alike hbranch s.address
    have haddress : u.address = v.address := by
      rw [effect.address, effect'.address]
      show st.behind s.address = st'.behind t.address
      rw [← hlevel.address, hbehind]
    exact ih hstable.2 hhigh (hr.step ha hb hstable.1 alike effect effect' haddress)

end Assembly

open Assembler6502.Assembly

namespace Session

variable {disk : Disk} {input : Input} {job done : Job} {report : Report}

theorem aboveZeroPage_origin {origin : UInt16} (h : 0x100 ≤ origin) :
    AboveZeroPage origin.toUInt32.toInt32 := by
  have hlow : 0x100 ≤ origin.toNat := UInt16.le_iff_toNat_le.mp h
  have hnat : origin.toUInt32.toBitVec.toNat = origin.toNat := UInt16.toNat_toUInt32 origin
  have hlt := origin.toNat_lt
  rw [aboveZeroPage_iff]
  show 0x100 ≤ origin.toUInt32.toBitVec.toInt
  rw [BitVec.toInt_eq_toNat_cond, hnat, if_pos (by omega)]
  omega

/-- Let a source have no scopes and no assignments, let every direct operand be a name alone, a
reference to an anonymous label or an expression over labels before it, and let every origin be an
expression over labels before it.  If the origin of the session lies above the zero page and no
address reaches `0x80000000`, then both passes of a run that succeeds come to each statement at the
same address. -/
theorem stable_addresses (h : assemble disk input job = .ok report done)
    (horigin : 0x100 ≤ job.session.options.origin)
    (hstable : widthsStable [] (firstVisits disk input job.session) = true)
    (hrange : ∀ v ∈ firstVisits disk input job.session,
      v.before.address.toInt + v.statement.size < 0x80000000) :
    List.Forall₂ (fun v w => v.before.address = w.before.address)
      (firstVisits disk input job.session) (secondVisits disk input job) := by
  obtain ⟨p⟩ := passes_of_assemble h
  have hno := target?_of_widthsStable hstable
  have hstart : (job.session.reset.initial p.source none).High :=
    ⟨aboveZeroPage_origin horigin, nofun, nofun⟩
  have hhigh := p.first.high rfl hno hrange hstart
  -- nothing was assigned, so nothing is forgotten between the passes
  have hassigned : p.middle.assigned = [] := p.first.assigned hno
  refine p.together.level rfl rfl hstable hhigh ⟨rfl, rfl, fun name => ?_, rfl, nofun⟩
  show (p.middle.assigned.foldl Scopes.eraseEverywhere p.middle.scopes).definitionAt [] name = _
  rw [hassigned]
  rfl

/-- Names and references ahead, an origin over a label before it, and operands behind `#` and in
parentheses that depend on a label ahead. -/
def stableInput : Input :=
  .text "main" (Byte.ofChars
    "s: lda e,x\n bne @f\n@ lda #e-s\n .org s+$10*2\n jmp (e-1)\ne: lda s+1,y\n .byte e-s\n".toList)

theorem stable_addresses_ahead :
    ∃ report done, assemble (.empty []) stableInput .plain = .ok report done ∧
      (firstVisits (.empty []) stableInput Job.plain.session).map (·.before.address) =
        [0x1000, 0x1000, 0x1003, 0x1005, 0x1005, 0x1007, 0x1020, 0x1023, 0x1023, 0x1026] ∧
      widthsStable [] (firstVisits (.empty []) stableInput Job.plain.session) = true ∧
      List.Forall₂ (fun v w => v.before.address = w.before.address)
        (firstVisits (.empty []) stableInput Job.plain.session)
        (secondVisits (.empty []) stableInput .plain) := by
  obtain ⟨report, done, hrun, hresult⟩ :=
    exists_of_trace (n := 15)
      (f := fun (vs, _, _, _) => (vs.map (·.before.address), widthsStable [] vs,
        vs.all fun v => v.before.address.toInt + v.statement.size < 0x80000000))
      (show (trace 15 (.empty []) stableInput .plain).map _ =
          some (([0x1000, 0x1000, 0x1003, 0x1005, 0x1005, 0x1007, 0x1020, 0x1023, 0x1023, 0x1026] :
            List Int32), true, true) by decide +kernel)
  simp only [Prod.mk.injEq] at hresult
  obtain ⟨haddresses, hstable, hrange⟩ := hresult
  refine ⟨report, done, hrun, haddresses, hstable,
    stable_addresses hrun (by decide) hstable fun v hv => ?_⟩
  exact of_decide_eq_true (List.all_eq_true.mp hrange v hv)

end Session

end Assembler6502
