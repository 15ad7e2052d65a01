/-
Runs with a writer that fails.

A run whose writer takes a number of bytes and then fails comes to the same as a
run whose writer never fails, as long as all that is written fits.  If it does
not fit, the run fails because the writer is full, and the writer has taken as
many bytes as it can of what would have been written, and nothing else.

* **`Bounded`** — what a run with a capacity comes to, beside one without;
* **`secondPass_bounded`** — the second pass with a capacity;
* **`assemble_capacity`** — runs with a capacity.
-/
import Assembler6502.Proofs.Assembly.Capacity
import Assembler6502.Proofs.Session.Formats

namespace Assembler6502

open Assembler6502.Assembly

/-- What a computation leaves behind. -/
def leaves {ε σ α : Type} : EStateM.Result ε σ α → σ
  | .ok _ s | .error _ s => s

/-- The job with a writer that takes `n` bytes in all. -/
def Job.within (n : Nat) (job : Job) : Job :=
  { job with writer := ⟨job.writer.written, some (n - job.writer.written.length)⟩ }

/-- The same result, with a writer that takes `n` bytes in all. -/
def resultWithin (n : Nat) :
    EStateM.Result Failure Job Report → EStateM.Result Failure Job Report
  | .ok report job => .ok report (job.within n)
  | .error failure job => .error failure (job.within n)

/-- What the writer has received in a run. -/
def received (result : EStateM.Result Failure Job Report) : List UInt8 :=
  (leaves result).writer.written

namespace Session

variable {n : Nat} {disk : Disk} {input : Input} {job : Job} {e e' : Emitter}

/-- What a run with a writer for `n` bytes comes to, beside one with a writer that is never full. -/
inductive Bounded (n : Nat) : EStateM.Result Failure Job Report →
    EStateM.Result Failure Job Report → Prop where
  | fits {whole : EStateM.Result Failure Job Report} (enough : (received whole).length ≤ n) :
      Bounded n whole (resultWithin n whole)
  | full {whole : EStateM.Result Failure Job Report} {job : Job}
      (overfull : n < (received whole).length) (cut : job.writer.written = (received whole).take n) :
      Bounded n whole (.error (.stopped (.file .writerFull)) job)

/-! ### The second pass -/

theorem leaves_runPass (s : Session) (pass : Pass) (disk : Disk) (source : Source)
    (image : Option Emitter) :
    leaves (s.runPass pass disk source image) =
      after (Assembly.run (s.setting pass disk)) (s.initial source image) := by
  unfold runPass conclude after
  cases Assembly.run (s.setting pass disk) (s.initial source image) with
  | error fault state => rfl
  | ok x state =>
    dsimp only
    split <;> rfl

/-- A pass with a capacity. -/
theorem runPass_cut (h : e.Capped n e') (s : Session) (pass : Pass) (disk : Disk)
    (source : Source) :
    SameOutcome Eq (Assembly.Alike (Option.Rel (Emitter.Capped n)) Eq)
        (s.runPass pass disk source (some e)) (s.runPass pass disk source (some e')) ∨
      ∃ v, s.runPass pass disk source (some e') = .error (.stopped (.file .writerFull)) v ∧
        Outgrown n (leaves (s.runPass pass disk source (some e))) v := by
  rcases run_cut (s.setting pass disk) (abreast_initial h s source) with halike | ⟨v, hfull, hout⟩
  · exact .inl (runPass_alike halike)
  · refine .inr ⟨v, ?_, ?_⟩
    · rw [runPass, hfull]
      rfl
    · rwa [leaves_runPass]

/-- What a pass is handed stays in front of what it writes. -/
theorem written_getD {s : State} (h : e.writer.written <+: s.written) :
    e.writer.written <+: (s.image.getD e).writer.written := by
  unfold State.written at h
  cases himage : s.image with
  | none => exact List.prefix_rfl
  | some e' => rwa [himage] at h

theorem written_getD_of_overfull {s : State} (h : n < s.written.length) :
    (s.image.getD e).writer.written = s.written := by
  unfold State.written at h ⊢
  cases himage : s.image with
  | none =>
    rw [himage] at h
    exact absurd h (Nat.not_lt_zero n)
  | some e' => rfl

/-- The writer receives what the image holds in the end. -/
theorem received_secondPass {start : UInt16} {source : Source}
    (hbegin : Emitter.begin start (.start job.session.options.format job.writer) = .ok () e)
    (hsource : input.source disk = .ok source) :
    received (secondPass disk input start job) =
      ((leaves (job.session.runPass .second disk source (some e))).image.getD e).writer.written := by
  rw [secondPass_eq, hbegin, hsource]
  dsimp only
  cases job.session.runPass .second disk source (some e) with
  | error failure state => rfl
  | ok x state => rfl

/-- The second pass adds to the header. -/
theorem header_received (disk : Disk) (input : Input) {start : UInt16}
    (hbegin : Emitter.begin start (.start job.session.options.format job.writer) = .ok () e) :
    e.writer.written <+: received (secondPass disk input start job) := by
  cases hsource : input.source disk with
  | error error =>
    rw [secondPass_eq, hbegin, hsource]
    exact List.prefix_rfl
  | ok source =>
    rw [received_secondPass hbegin hsource]
    refine written_getD ?_
    rw [leaves_runPass]
    exact run_written (job.session.setting .second disk) (job.session.initial source (some e))

/-- The emitter at the end of a pass that fits. -/
theorem capped_getD {u v : State} (h : e.Capped n e')
    (himage : Option.Rel (Emitter.Capped n) u.image v.image) :
    (u.image.getD e).Capped n (v.image.getD e') := by
  generalize u.image = x at himage
  generalize v.image = y at himage
  cases himage with
  | none => exact h
  | some capped => exact capped

theorem resume_of_twin {I : Option Emitter → Option Emitter → Prop} {u v : State}
    (h : Twin I u v) (s : Session) : s.resume v = s.resume u := by
  rw [resume, resume, h.scopes, h.anonymous]

/-- The second pass behind a header that fits. -/
theorem secondPass_bounded_of_begin {start : UInt16} (h : e.Capped n e')
    (hbegin : Emitter.begin start (.start job.session.options.format job.writer) = .ok () e)
    (hbegin' : Emitter.begin start (.start job.session.options.format (job.within n).writer) =
      .ok () e') :
    Bounded n (secondPass disk input start job) (secondPass disk input start (job.within n)) := by
  have hsession : (job.within n).session = job.session := rfl
  cases hsource : input.source disk with
  | error error =>
    rw [secondPass_eq, secondPass_eq, hsession, hbegin, hbegin', hsource]
    dsimp only
    rw [h.writer]
    exact .fits h.fits
  | ok source =>
    have hreceived := received_secondPass hbegin hsource
    rcases runPass_cut h job.session .second disk source with hpass | ⟨v, hfull, hout⟩
    · rw [secondPass_eq, secondPass_eq, hsession, hbegin, hbegin', hsource]
      dsimp only
      generalize job.session.runPass .second disk source (some e) = x at hpass
      generalize job.session.runPass .second disk source (some e') = y at hpass
      cases hpass with
      | @ok _ u v states =>
        have hend := capped_getD h states.twin.image
        dsimp only
        rw [← states.twin.address, hend.size, hend.writer, resume_of_twin states.twin]
        exact .fits hend.fits
      | @failed f g u v failures states =>
        have hend := capped_getD h states.twin.image
        dsimp only
        rw [← failures.eq, hend.writer, resume_of_twin states.twin]
        exact .fits hend.fits
    · obtain ⟨f, himage, hcut⟩ := hout.cut
      rw [written_getD_of_overfull hout.overfull] at hreceived
      have hlimited : secondPass disk input start (job.within n) =
          .error (.stopped (.file .writerFull)) ⟨job.session.resume v, f.writer⟩ := by
        rw [secondPass_eq, hsession, hbegin', hsource]
        dsimp only
        rw [hfull]
        dsimp only
        rw [himage]
        rfl
      rw [hlimited]
      exact .full (hreceived ▸ hout.overfull) (hreceived ▸ hcut)

/-- The second pass with a capacity. -/
theorem secondPass_bounded (disk : Disk) (input : Input) (start : UInt16) (job : Job)
    (hroom : job.writer.room = none) (hfits : job.writer.written.length ≤ n) :
    Bounded n (secondPass disk input start job) (secondPass disk input start (job.within n)) := by
  have hcapped : (Emitter.start job.session.options.format job.writer).Capped n
      (.start job.session.options.format (job.within n).writer) :=
    ⟨rfl, rfl, hroom, hfits, rfl⟩
  obtain ⟨e, hbegin, hlimited⟩ := hcapped.put (job.session.options.format.header start) 0
  rcases hlimited with ⟨e', hbegin', he⟩ | ⟨hover, e', hbegin', hcut⟩
  · exact secondPass_bounded_of_begin he hbegin hbegin'
  -- not even the header fits
  · obtain ⟨more, hmore⟩ := header_received disk input hbegin
    have hfull : Emitter.begin start
        (.start (job.within n).session.options.format (job.within n).writer) =
          .error .writerFull e' := hbegin'
    have hlimited : secondPass disk input start (job.within n) =
        .error (.stopped (.file .writerFull)) { job.within n with writer := e'.writer } := by
      rw [secondPass_eq, hfull]
    rw [hlimited]
    refine .full ?_ ?_
    · rw [← hmore, List.length_append]
      omega
    · rw [← hmore, List.take_append_of_le_length (Nat.le_of_lt hover)]
      exact hcut

/-! ### Runs -/

theorem assemble_bounded (disk : Disk) (input : Input) (job : Job)
    (hroom : job.writer.room = none) (hfits : job.writer.written.length ≤ n) :
    Bounded n (assemble disk input job) (assemble disk input (job.within n)) := by
  have hsession : (job.within n).session = job.session := rfl
  unfold assemble
  rw [hsession]
  cases firstPass disk input job.session with
  | error failure session => exact .fits hfits
  | ok start session => exact secondPass_bounded disk input start ⟨session, job.writer⟩ hroom hfits

/-- A writer that takes `n` bytes and then fails.  If all that a run writes fits, the run comes to
the same as with a writer that never fails, which has received the same bytes.  If it does not fit,
the run fails because the writer is full, and the writer has received the first `n` bytes of it. -/
theorem assemble_capacity (disk : Disk) (input : Input) (s : Session) (n : Nat) :
    let whole := assemble disk input ⟨s, .ofCapacity none⟩
    let limited := assemble disk input ⟨s, .ofCapacity (some n)⟩
    ((received whole).length ≤ n → limited = resultWithin n whole) ∧
      (n < (received whole).length → received limited = (received whole).take n ∧
        ∃ job, limited = .error (.stopped (.file .writerFull)) job) := by
  intro whole limited
  have hbounded : Bounded n whole limited :=
    assemble_bounded disk input ⟨s, .ofCapacity none⟩ rfl (Nat.zero_le n)
  generalize limited = x at hbounded
  cases hbounded with
  | fits enough => exact ⟨fun _ => rfl, fun h => absurd enough (Nat.not_le.mpr h)⟩
  | full overfull cut =>
    exact ⟨fun h => absurd h (Nat.not_le.mpr overfull), fun _ => ⟨cut, _, rfl⟩⟩

/-- An instruction, and words behind a gap. -/
def wordsInput : Input :=
  .text "main" (Byte.ofChars " lda #1\n .org $1004\n .word $1234,$abcd\n".toList)

/-- The writer fails within the gap, or behind the last byte. -/
theorem assemble_capacity_words :
    let s := Session.start {}
    (∃ job, assemble (.empty []) wordsInput ⟨s, .ofCapacity (some 3)⟩ =
        .error (.stopped (.file .writerFull)) job ∧ job.writer.written = [0xa9, 0x01, 0]) ∧
      ∃ report job, assemble (.empty []) wordsInput ⟨s, .ofCapacity (some 8)⟩ = .ok report job ∧
        report.size = 8 ∧ job.writer.written = [0xa9, 0x01, 0, 0, 0x34, 0x12, 0xcd, 0xab] := by
  intro s
  obtain ⟨report, done, hrun, hresult⟩ :=
    exists_of_trace (n := 10)
      (f := fun (_, _, report, done) => (report.size, done.writer.written))
      (show (trace 10 (.empty []) wordsInput ⟨s, .ofCapacity none⟩).map _ =
          some (8, ([0xa9, 0x01, 0, 0, 0x34, 0x12, 0xcd, 0xab] : List UInt8)) by decide +kernel)
  simp only [Prod.mk.injEq] at hresult
  obtain ⟨hsize, hwritten⟩ := hresult
  have hreceived : received (assemble (.empty []) wordsInput ⟨s, .ofCapacity none⟩) =
      [0xa9, 0x01, 0, 0, 0x34, 0x12, 0xcd, 0xab] := by
    rw [hrun]
    exact hwritten
  constructor
  · obtain ⟨hcut, job, hjob⟩ := (assemble_capacity (.empty []) wordsInput s 3).2
      (by rw [hreceived]; decide)
    rw [hjob, hreceived] at hcut
    exact ⟨job, hjob, hcut⟩
  · have hfits := (assemble_capacity (.empty []) wordsInput s 8).1 (by rw [hreceived]; decide)
    rw [hrun] at hfits
    exact ⟨report, done.within 8, hfits, hsize, hwritten⟩

end Session

end Assembler6502
