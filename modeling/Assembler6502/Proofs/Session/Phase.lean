/-
Where labels lie.

The first pass gives a label the address that it has come to.  The second pass
reads every operand again, with values for names that had none before, and so
it can find an instruction longer or shorter and an origin elsewhere.  From
there on its addresses are not those that the labels have.

* **`drift`** — by how much the second pass is ahead of the first one, found
  from the statements before;
* **`Together.address`** — the addresses of the two passes differ by the drift;
* **`label_address`** — a label that has a value has the address of the first
  pass, and lies there if and only if there is no drift;
* **`label_address_shifted`** — a run that succeeds and has a label that does
  not lie at its address.
-/
import Assembler6502.Proofs.Assembly.Definitions
import Assembler6502.Proofs.Session.Lockstep

namespace Assembler6502

/-! ### Drift -/

namespace Statement

/-- The drift behind a statement, for its two readings and the drift before it.  An instruction adds
the difference of its widths, and an origin puts the difference of its readings in place of all that
was before. -/
def drift (d : Int32) : Statement → Statement → Int32
  | .instruction i, .instruction j => d + (Int32.ofNat j.mode.size - Int32.ofNat i.mode.size)
  | .origin a, .origin b => b - a
  | _, _ => d

variable {a b : Statement}

theorem Alike.behind (h : a.Alike b) (x d : Int32) :
    b.behind (x + d) = a.behind x + drift d a b := by
  have hsame : ∀ n : Nat, x + d + Int32.ofNat n = x + Int32.ofNat n + d := by
    intro n
    grind
  cases h.kinds with
  | @instruction i j =>
    show x + d + Int32.ofNat j.mode.size =
      x + Int32.ofNat i.mode.size + (d + (Int32.ofNat j.mode.size - Int32.ofNat i.mode.size))
    grind
  | @origin p q =>
    show q = p + (q - p)
    grind
  | @bytes p q length =>
    show x + d + Int32.ofNat q.length = x + Int32.ofNat p.length + d
    rw [length]
    exact hsame q.length
  | @words p q length =>
    show x + d + Int32.ofNat (2 * q.length) = x + Int32.ofNat (2 * p.length) + d
    rw [length]
    exact hsame (2 * q.length)
  | _ => exact hsame 0

end Statement

namespace Assembly

/-- By how much the second pass is ahead behind statements that both passes carried out. -/
def drift (pairs : List (Visit × Visit)) : Int32 :=
  pairs.foldl (fun d p => p.1.statement.drift d p.2.statement) 0

variable {a b : Setting} {s t s' t' : State} {vs ws : List Visit}

/-- The addresses of the two passes differ by the drift of the statements before. -/
theorem Together.address (h : Together a b s t vs ws s' t') {d : Int32}
    (hd : t.address = s.address + d) {k : Nat} {v w : Visit} (hv : vs[k]? = some v)
    (hw : ws[k]? = some w) :
    w.before.address = v.before.address +
      ((vs.zip ws).take k).foldl (fun d p => p.1.statement.drift d p.2.statement) d := by
  induction h generalizing d k with
  | finish => cases hv
  | close _ _ _ _ _ ih => exact ih hd hv hw
  | @carry s t u u' s' t' st st' r r' vs ws _ _ _ alike effect effect' _ ih =>
    cases k with
    | zero =>
      cases hv
      cases hw
      exact hd
    | succ k =>
      have hu : u'.address = u.address + st.drift d st' := by
        rw [effect.address, effect'.address]
        show st'.behind t.address = st.behind s.address + st.drift d st'
        rw [hd]
        exact alike.behind s.address d
      exact ih hu hv hw

/-- Each statement of the first pass has one of the second pass beside it. -/
theorem exists_inStep (h : List.Forall₂ Visit.InStep vs ws) {k : Nat} {v : Visit}
    (hv : vs[k]? = some v) : ∃ w, ws[k]? = some w ∧ v.InStep w := by
  induction h generalizing k with
  | nil => cases hv
  | cons hstep _ ih =>
    cases k with
    | zero =>
      cases hv
      exact ⟨_, rfl, hstep⟩
    | succ k => exact ih hv

/-- What the second pass assigns to, the first one assigns to. -/
theorem unassigned_of_inStep (h : List.Forall₂ Visit.InStep vs ws) {scope : List String}
    {name : String} (hno : ∀ v ∈ vs, ¬ v.Assigns scope name) :
    ∀ w ∈ ws, ¬ w.Assigns scope name := by
  induction h with
  | nil => exact fun _ hw => nomatch hw
  | cons hstep _ ih =>
    intro u hu hassigns
    rcases List.mem_cons.mp hu with rfl | hu
    · refine hno _ List.mem_cons_self ⟨hassigns.1.trans hstep.path.symm, ?_⟩
      rw [hstep.statement.target?]
      exact hassigns.2
    · exact ih (fun v hv => hno v (List.mem_cons_of_mem _ hv)) u hu hassigns

end Assembly

open Assembler6502.Assembly

namespace Session

variable {disk : Disk} {input : Input} {job done : Job} {report : Report}

/-! ### Labels -/

/-- A label of the first pass has its address at the end of the run, unless its name was forgotten
between the passes. -/
theorem Passes.definitionAt_label (p : Passes disk input job report done) {v : Visit}
    (hv : v ∈ firstVisits disk input job.session) {name : String}
    (hlabel : v.statement.label? = some name) :
    done.session.scopes.definitionAt v.before.scopes.path name =
      if name ∈ p.middle.assigned then none else some ⟨.label, v.before.address⟩ := by
  obtain ⟨hmiddle, hno⟩ := p.first.label rfl hv hlabel
  have hlast := p.second.definitionAt_of_unassigned rfl
    (unassigned_of_inStep p.together.inStep hno)
  have hbetween :
      ((job.session.between p.middle).initial p.source (some p.emitter)).scopes.definitionAt
        v.before.scopes.path name =
        if name ∈ p.middle.assigned then none
        else p.middle.scopes.definitionAt v.before.scopes.path name :=
    Scopes.definitionAt_foldl_eraseEverywhere _ _ _ _
  rw [p.scopes_eq, hlast, hbetween, hmiddle]

/-- A label that has a value after a run that succeeds has the address that the first pass had at
it.  The second pass comes to it ahead by the drift of the statements before, so the label lies at
its address if and only if that drift is zero. -/
theorem label_address (h : assemble disk input job = .ok report done) {k : Nat} {v : Visit}
    (hv : (firstVisits disk input job.session)[k]? = some v) {name : String}
    (hlabel : v.statement.label? = some name) {kind : SymbolKind} {value : Int32}
    (hvalue : done.session.scopes.symbolAt v.before.scopes.path name = some ⟨kind, some value⟩) :
    ∃ w, (secondVisits disk input job)[k]? = some w ∧ v.InStep w ∧ value = v.before.address ∧
      w.before.address = value + drift
        (((firstVisits disk input job.session).zip (secondVisits disk input job)).take k) ∧
      (value = w.before.address ↔ drift
        (((firstVisits disk input job.session).zip (secondVisits disk input job)).take k) = 0) := by
  obtain ⟨p⟩ := passes_of_assemble h
  obtain ⟨w, hw, hstep⟩ := exists_inStep p.together.inStep hv
  have hdefinition : done.session.scopes.definitionAt v.before.scopes.path name =
      some ⟨kind, value⟩ := by
    rw [Scopes.definitionAt, hvalue]
    rfl
  have hvalue_eq : value = v.before.address := by
    rw [p.definitionAt_label (List.mem_of_getElem? hv) hlabel] at hdefinition
    split at hdefinition
    · cases hdefinition
    · cases hdefinition
      rfl
  -- both passes start at the origin
  have hstart : ((job.session.between p.middle).initial p.source (some p.emitter)).address =
      (job.session.reset.initial p.source none).address + 0 := (Int32.add_zero _).symm
  have haddress := p.together.address hstart hv hw
  refine ⟨w, hw, hstep, hvalue_eq, ?_, ?_⟩
  · rw [hvalue_eq]
    exact haddress
  · rw [hvalue_eq, haddress]
    exact Int32.left_eq_add

/-- An instruction that names a label ahead.  Its operand is `$fe` with the placeholder of the first
pass and `$100` with the address of the label. -/
def shiftedInput : Input :=
  .text "main" (Byte.ofChars " lda e-$f02\ne: nop\n".toList)

/-- The label has the address behind the short form of the instruction, and lies behind the long
one. -/
theorem label_address_shifted :
    ∃ report done v w, assemble (.empty []) shiftedInput .plain = .ok report done ∧
      (firstVisits (.empty []) shiftedInput Job.plain.session)[1]? = some v ∧
      v.statement.label? = some "e" ∧
      done.session.scopes.symbolAt v.before.scopes.path "e" = some ⟨.label, some 0x1002⟩ ∧
      (secondVisits (.empty []) shiftedInput .plain)[1]? = some w ∧ v.InStep w ∧
      w.before.address = 0x1003 := by
  obtain ⟨report, done, hrun, hresult⟩ :=
    exists_of_trace (n := 9)
      (f := fun (vs, ws, _, done) =>
        (vs[1]?.map fun v => (v.statement, v.before.scopes.path),
          done.session.scopes.symbolAt [] "e", drift ((vs.zip ws).take 1)))
      (show (trace 9 (.empty []) shiftedInput .plain).map _ =
          some (some (.label "e", []), some ⟨.label, some 0x1002⟩, (1 : Int32)) by
        decide +kernel)
  simp only [Prod.mk.injEq] at hresult
  obtain ⟨hvisit, hvalue, hdrift⟩ := hresult
  obtain ⟨v, hv, heq⟩ := Option.map_eq_some_iff.mp hvisit
  obtain ⟨hstatement, hpath⟩ := Prod.mk.inj heq
  have hlabel : v.statement.label? = some "e" := by rw [hstatement]; rfl
  rw [← hpath] at hvalue
  obtain ⟨w, hw, hstep, -, haddress, -⟩ := label_address hrun hv hlabel hvalue
  rw [hdrift] at haddress
  exact ⟨report, done, v, w, hrun, hv, hlabel, hvalue, hw, hstep, haddress⟩

end Session

end Assembler6502
