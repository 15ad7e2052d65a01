/-
A pass whose writer is full.

A writer with a capacity takes what a writer without one takes, until the
capacity is reached.  So a pass goes on as if its writer were never full, or it
stops at the statement that writes more than fits.  What the writer holds then is
the beginning of what the other one holds, now and however the other pass goes on,
because a pass only ever adds to its image.

* **`Emitter.Capped`** — an emitter beside one that is never full;
* **`run_written`** — a pass only adds to its image;
* **`execute_cut`** — a statement does the same in both passes, or it stops one;
* **`run_cut`** — a pass ends like the other, or it is cut off.
-/
import Mathlib.Data.List.Infix
import Assembler6502.Proofs.Assembly.Alike
import Assembler6502.Proofs.Assembly.Visits

namespace Assembler6502

/-! ### Emitters -/

namespace Emitter

variable {n : Nat} {e e' : Emitter}

/-- The first emitter is never full.  The second has taken the same, and `n` bytes fit in all. -/
structure Capped (n : Nat) (e e' : Emitter) : Prop where
  format : e'.format = e.format
  size : e'.size = e.size
  room : e.writer.room = none
  fits : e.writer.written.length ≤ n
  writer : e'.writer = ⟨e.writer.written, some (n - e.writer.written.length)⟩

/-- Output is put to both emitters, or it is cut off in the second. -/
theorem Capped.put (h : Capped n e e') (output : List UInt8) (count : Nat) :
    ∃ f, Emitter.put output count e = .ok () f ∧
      ((∃ f', Emitter.put output count e' = .ok () f' ∧ Capped n f f') ∨
        n < f.writer.written.length ∧ ∃ f', Emitter.put output count e' = .error .writerFull f' ∧
          f'.writer.written = f.writer.written.take n) := by
  obtain ⟨f, ⟨written, room⟩, k⟩ := e
  obtain ⟨f', writer', k'⟩ := e'
  obtain ⟨hformat, hsize, hroom, hfits, hwriter⟩ := h
  dsimp only at hformat hsize hroom hfits hwriter
  subst hformat hsize hroom hwriter
  refine ⟨⟨f', ⟨written ++ output, none⟩, k' + count⟩, rfl, ?_⟩
  by_cases houtput : output.length ≤ n - written.length
  · refine .inl ⟨⟨f', ⟨written ++ output, some (n - written.length - output.length)⟩, k' + count⟩,
      ?_, rfl, rfl, rfl, ?_, ?_⟩
    · simp only [Emitter.put, Writer.write, houtput, if_true]
    · rw [List.length_append]
      omega
    · rw [List.length_append, Nat.sub_sub]
  · refine .inr ⟨?_, ⟨f', ⟨written ++ output.take (n - written.length), some 0⟩, k'⟩, ?_, ?_⟩
    · rw [List.length_append]
      omega
    · simp only [Emitter.put, Writer.write, houtput, if_false]
    · rw [List.take_append, List.take_of_length_le hfits]

/-- What is put to an emitter is added at its end. -/
theorem put_written (output : List UInt8) (count : Nat) (e : Emitter) :
    (∃ f, put output count e = .ok () f ∧ e.writer.written <+: f.writer.written) ∨
      ∃ error f, put output count e = .error error f ∧ e.writer.written <+: f.writer.written := by
  unfold put Writer.write
  cases e.writer.room with
  | none => exact .inl ⟨_, rfl, List.prefix_append _ _⟩
  | some n =>
    dsimp only
    split
    · next hfull =>
      split at hfull
      · cases hfull
        exact .inl ⟨_, rfl, List.prefix_append _ _⟩
      · cases hfull
    · next hfull =>
      split at hfull
      · cases hfull
      · cases hfull
        exact .inr ⟨_, _, rfl, List.prefix_append _ _⟩

end Emitter

namespace Assembly

variable {setting : Setting} {statement : Statement} {α β : Type} {a : Action α}
  {f : α → Action β} {n : Nat} {s t u v : State}

/-! ### A pass adds to its image -/

theorem Plain.written (h : Plain a) (s : State) : s.written <+: (after a s).written := by
  induction h generalizing s with
  | pure | get | fail => exact List.prefix_rfl
  | @modify f _ _ image =>
    show s.written <+: (f s).written
    rw [State.written, State.written, image]
  | emit output count =>
    unfold after Assembly.emit State.written
    cases hs : s.image with
    | none =>
      dsimp only
      rw [hs]
    | some e =>
      rcases Emitter.put_written (output e.format) count e with ⟨e', hput, hadded⟩ |
        ⟨error, e', hput, hadded⟩
      all_goals
        have hemit : (do Emitter.put (output (← MonadState.get).format) count :
            EStateM FileError Emitter Unit) e = _ := hput
        simp only [hemit]
        exact hadded
  | @bind α β a f _ _ ihfirst ihrest =>
    have hfirst := ihfirst s
    cases ha : a s with
    | ok x t =>
      rw [after, ha] at hfirst
      rw [after_bind ha]
      exact hfirst.trans (ihrest x t)
    | error fault t =>
      rw [after, ha] at hfirst
      rw [after_bind_error ha]
      exact hfirst

theorem execute_written (setting : Setting) (statement : Statement) (s : State) :
    s.written <+: (after (execute setting statement) s).written := by
  by_cases hinclude : ∃ name, statement = .includeFile name
  · obtain ⟨name, rfl⟩ := hinclude
    rcases executeInclude_cases setting.disk name s with ⟨_, _, _, -, hok⟩ | ⟨_, -, herror⟩
    · rw [after, execute, hok]
      exact List.prefix_rfl
    · rw [after, execute, herror]
  · exact (Plain.execute setting fun name hname => hinclude ⟨name, hname⟩).written s

/-- The state behind a step. -/
def Step.state : Step → State
  | next s | finished s | stopped _ s => s

theorem carryOut_written (setting : Setting) (statement : Statement) (s : State) :
    (carryOut setting statement s).state.written =
      (after (execute setting statement) s).written := by
  unfold carryOut after
  cases execute setting statement s with
  | ok x t => rfl
  | error fault t =>
    cases fault with
    | file error => rfl
    | diagnostic d =>
      dsimp only
      split <;> rfl

theorem endFile_written (setting : Setting) (s : State) :
    (endFile setting s).state.written = s.written := by
  unfold endFile State.finish
  cases s.files.pop? with
  | some files => rfl
  | none =>
    dsimp only
    split <;> rfl

theorem step_written (setting : Setting) (s : State) :
    s.written <+: (step setting s).state.written := by
  unfold step
  split
  · rw [endFile_written]
    exact List.prefix_rfl
  · exact List.prefix_rfl
  · next statement r _ _ _ =>
    rw [carryOut_written]
    exact execute_written setting statement (s.resume r)
  · split <;> exact List.prefix_rfl

/-- A pass only adds to its image. -/
theorem run_written (setting : Setting) (s : State) :
    s.written <+: (after (run setting) s).written := by
  fun_induction run setting s with
  | case1 s t hstep ih =>
    have hadded := step_written setting s
    rw [hstep] at hadded
    unfold after
    rw [run_of_next hstep]
    exact hadded.trans ih
  | case2 s t hstep =>
    have hadded := step_written setting s
    rw [hstep] at hadded
    unfold after
    rw [run_of_finished hstep]
    exact hadded
  | case3 s fault t hstep =>
    have hadded := step_written setting s
    rw [hstep] at hadded
    unfold after
    rw [run_of_stopped hstep]
    exact hadded

theorem written_of_reaches (h : Reaches setting s t) :
    t.written <+: (after (run setting) s).written := by
  have hadded := run_written setting t
  unfold after at hadded ⊢
  rwa [run_of_reaches h]

/-! ### Statements that write too much -/

/-- The first image holds more than `n` bytes, the second the first `n` of them. -/
structure Outgrown (n : Nat) (s t : State) : Prop where
  overfull : n < s.written.length
  cut : ∃ e, t.image = some e ∧ e.writer.written = s.written.take n

/-- More bytes behind the first `n` make no difference. -/
theorem Outgrown.mono (h : Outgrown n s t) (hu : s.written <+: u.written) : Outgrown n u t where
  overfull := Nat.lt_of_lt_of_le h.overfull hu.length_le
  cut := by
    obtain ⟨e, himage, hcut⟩ := h.cut
    obtain ⟨more, hmore⟩ := hu
    refine ⟨e, himage, ?_⟩
    rw [hcut, ← hmore, List.take_append_of_le_length (Nat.le_of_lt h.overfull)]

/-- Two actions do the same, or the second one writes more than fits. -/
def Cut (n : Nat) (a b : Action α) (s t : State) : Prop :=
  Paired (Option.Rel (Emitter.Capped n)) s t (a s) (b t) ∨
    ∃ v, b t = .error (.file .writerFull) v ∧ Outgrown n (after a s) v

namespace Cut

theorem get {f g : State → Action α} (h : Cut n (f s) (g t) s t) :
    Cut n (MonadState.get >>= f) (MonadState.get >>= g) s t :=
  h

theorem emit (h : Twin (Option.Rel (Emitter.Capped n)) s t) (output : Format → List UInt8)
    (count : Nat) :
    Cut n (emit (do Emitter.put (output (← MonadState.get).format) count))
      (emit (do Emitter.put (output (← MonadState.get).format) count)) s t := by
  have himage := h.image
  unfold Cut after Assembly.emit
  generalize s.image = x at himage
  generalize t.image = y at himage
  cases himage with
  | none => exact .inl (.ok h (.refl s) (.refl t))
  | @some e e' capped =>
    obtain ⟨f, hput, hput'⟩ := capped.put (output e.format) count
    have hemit : (do Emitter.put (output (← MonadState.get).format) count :
        EStateM FileError Emitter Unit) e = .ok () f := hput
    have hemit' : (do Emitter.put (output (← MonadState.get).format) count :
        EStateM FileError Emitter Unit) e' = Emitter.put (output e.format) count e' := by
      rw [← capped.format]
      rfl
    simp only [hemit, hemit']
    rcases hput' with ⟨f', hfits, hcapped⟩ | ⟨hfull, f', hcut, hwritten⟩
    · rw [hfits]
      exact .inl (.ok ⟨h.scopes, h.anonymous, h.address, h.start, h.placed, h.assigned,
        .some hcapped⟩ ⟨rfl, rfl⟩ ⟨rfl, rfl⟩)
    · rw [hcut]
      exact .inr ⟨_, rfl, hfull, f', rfl, hwritten⟩

/-- What follows on an action that is cut off is left out. -/
theorem bind {a b : Action α} {f g : α → Action β} (h : Cut n a b s t) (hplain : ∀ x, Plain (f x))
    (hrest : ∀ x u v, Twin (Option.Rel (Emitter.Capped n)) u v →
      Paired (Option.Rel (Emitter.Capped n)) u v (f x u) (g x v)) :
    Cut n (a >>= f) (b >>= g) s t := by
  rcases h with hpaired | ⟨v, hcut, houtgrown⟩
  · exact .inl (hpaired.bind hrest)
  · refine .inr ⟨v, ?_, houtgrown.mono ?_⟩
    · show EStateM.bind b g t = _
      simp only [EStateM.bind, hcut]
    · cases ha : a s with
      | ok x u =>
        rw [after_bind ha, after, ha]
        exact (hplain x).written u
      | error fault u =>
        rw [after_bind_error ha, after, ha]

end Cut

section

variable (h : Twin (Option.Rel (Emitter.Capped n)) s t)

include h

theorem executeInstruction_cut (pass : Pass) (i : Instruction) :
    Cut n (executeInstruction pass i) (executeInstruction pass i) s t := by
  refine .get ?_
  rw [← h.address]
  cases i.encode pass s.address with
  | error error => exact .inl (.fail h error)
  | ok bytes =>
    exact .bind (.emit h (fun f => f.instruction s.address bytes) bytes.length)
      (fun _ => .advance bytes.length) fun _ u v huv => .advance huv bytes.length

theorem executeData_cut (bytes : List UInt8) : Cut n (executeData bytes) (executeData bytes) s t := by
  refine .get ?_
  rw [← h.address]
  exact .bind (.emit h (fun f => f.data s.address bytes) bytes.length)
    (fun _ => .advance bytes.length) fun _ u v huv => .advance huv bytes.length

theorem executeOrigin_cut (pass : Pass) (origin : Int32) :
    Cut n (executeOrigin pass origin) (executeOrigin pass origin) s t := by
  cases pass with
  | first => exact .inl (executeOrigin_first_paired h origin)
  | second =>
    refine .get ?_
    dsimp only
    rw [← h.address, ← h.placed]
    split
    · exact .inl (.fail h _)
    · split
      · exact .bind (.emit h (fun f => f.fill (origin - s.address).toNatClampNeg) _)
          (fun _ => .modify (fun _ => rfl) (fun _ => rfl) fun _ => rfl)
          fun _ u v huv => moveTo_paired huv origin
      · exact .inl (moveTo_paired h origin)

/-- A statement that includes nothing does the same in both states, or it writes more than fits. -/
theorem execute_cut (setting : Setting) (hinclude : ∀ name, statement ≠ .includeFile name) :
    Cut n (execute setting statement) (execute setting statement) s t := by
  cases statement with
  | includeFile name => exact absurd rfl (hinclude name)
  | instruction i => exact executeInstruction_cut h setting.pass i
  | origin address => exact executeOrigin_cut h setting.pass address
  | anonymousLabel => exact .inl (executeAnonymousLabel_paired h setting.pass)
  | bytes data => exact executeData_cut h data
  | words data => exact executeData_cut h (wordBytes data)
  | label name => exact .inl (executeLabel_paired h setting.pass name)
  | assign name value relocatable =>
    exact .inl (executeAssign_paired h setting.pass name value relocatable)
  | openScope name => exact .inl (executeOpenScope_paired h setting.pass name)
  | closeScope => exact .inl (executeCloseScope_paired h)
  | undefined => exact .inl (.fail h _)
  | endOfInput => exact .inl (.pure h ())

end

/-! ### Passes that are cut off -/

/-- A step leads on alike, or it stops the second pass with a full writer. -/
theorem step_cut (setting : Setting) (h : Abreast (Option.Rel (Emitter.Capped n)) s t) :
    StepAlike (Option.Rel (Emitter.Capped n)) Eq Eq (step setting s) (step setting t) ∨
      ∃ v, step setting t = .stopped (.file .writerFull) v ∧
        Outgrown n (step setting s).state v := by
  by_cases hcut : ∃ statement r v,
      Statement.parse (s.context setting) s.reading = .ok statement r ∧
      execute setting statement (t.resume r) = .error (.file .writerFull) v ∧
      Outgrown n (after (execute setting statement) (s.resume r)) v
  · obtain ⟨statement, r, v, hparse, hfull, houtgrown⟩ := hcut
    have hparse' : Statement.parse (t.context setting) t.reading = .ok statement r :=
      (h.parse setting).symm.trans hparse
    have hend : statement ≠ .endOfInput := by
      rintro rfl
      cases hfull
    have hundefined : statement ≠ .undefined := by
      rintro rfl
      cases hfull
    refine .inr ⟨v, ?_, ?_⟩
    · rw [step_of_parse hparse' hend hundefined, carryOut, hfull]
    · rw [step_of_parse hparse hend hundefined]
      refine houtgrown.mono ?_
      rw [carryOut_written]
  · refine .inl (step_abreast h fun statement r hparse hinclude => ?_)
    rcases execute_cut (h.alike.resume rfl).twin setting hinclude with hpaired | ⟨v, hfull⟩
    · exact hpaired
    · exact absurd ⟨statement, r, v, hparse, hfull⟩ hcut

/-- A pass with a capacity ends like one without, or it stops with a full writer, which has taken the
first bytes of what the other one takes. -/
theorem run_cut (setting : Setting) (h : Abreast (Option.Rel (Emitter.Capped n)) s t) :
    EndAlike (Option.Rel (Emitter.Capped n)) Eq (run setting s) (run setting t) ∨
      ∃ v, run setting t = .error (.file .writerFull) v ∧ Outgrown n (after (run setting) s) v := by
  fun_induction run setting s generalizing t with
  | case1 s u hstep ih =>
    rcases step_cut setting h with hsteps | ⟨v, hfull, houtgrown⟩
    · rw [hstep] at hsteps
      generalize hx : step setting t = x at hsteps
      cases hsteps with
      | next alike files =>
        unfold after
        rw [run_of_next hx, run_of_next hstep]
        exact ih ⟨alike, files⟩
    · refine .inr ⟨v, run_of_stopped hfull, houtgrown.mono ?_⟩
      unfold after
      rw [run_of_next hstep, hstep]
      exact run_written setting u
  | case2 s u hstep =>
    rcases step_cut setting h with hsteps | ⟨v, hfull, houtgrown⟩
    · rw [hstep] at hsteps
      generalize hx : step setting t = x at hsteps
      cases hsteps with
      | finished alike => exact .inl (run_of_finished hx ▸ .ok alike)
    · rw [hstep] at houtgrown
      refine .inr ⟨v, run_of_stopped hfull, ?_⟩
      unfold after
      rw [run_of_finished hstep]
      exact houtgrown
  | case3 s fault u hstep =>
    rcases step_cut setting h with hsteps | ⟨v, hfull, houtgrown⟩
    · rw [hstep] at hsteps
      generalize hx : step setting t = x at hsteps
      cases hsteps with
      | stopped fault alike => exact .inl (run_of_stopped hx ▸ .stopped fault alike)
    · rw [hstep] at houtgrown
      refine .inr ⟨v, run_of_stopped hfull, ?_⟩
      unfold after
      rw [run_of_stopped hstep]
      exact houtgrown

end Assembly

end Assembler6502
