/-
Statements make progress.

* **`Statement.parse_grammatical`** — the parser of statements is put together from reading, looking
  ahead and failing;
* **`Statement.parse_source`** — the source stays the same;
* **`Statement.parse_suffix`** — the cursor only moves forward;
* **`Statement.parse_length_lt`** — it moves unless the input has ended, also
  when the statement fails.
-/
import Assembler6502.Expression.Progress
import Assembler6502.Statement.Grammar

namespace Assembler6502

open Assembler6502.Parser

namespace Statement

theorem checkWidth_grammatical {context : Context} {fits : Bool} {error : StatementError}
    (h : error.isInternal = false) : Grammatical (checkWidth context fits error) := by
  unfold checkWidth
  split
  · exact .fail h
  · exact .pure _

theorem expect_grammatical {lexeme : Lexeme Name} {what : String} :
    Grammatical (expect lexeme what) := by
  refine .bind .next fun token => ?_
  split
  · exact .fail rfl
  · exact .pure _

theorem skipLineEnd_grammatical : Grammatical skipLineEnd := by
  refine .bind .peek fun token => ?_
  split
  · exact .bind .next fun _ => .pure _
  · exact .pure _

theorem endOfStatement_grammatical : Grammatical endOfStatement := by
  refine .bind .peek fun token => ?_
  split
  · exact .bind .next fun _ => .pure _
  · exact .pure _
  · exact .fail rfl

theorem reference_grammatical {context : Context}
    {resolve : List Int32 → Int32 → Option Int32} {error : StatementError}
    (h : error.isInternal = false) : Grammatical (reference context resolve error) := by
  unfold reference
  split
  · exact .pure _
  · split
    · exact .pure _
    · exact .fail h

theorem operand_grammatical {context : Context} : Grammatical (operand context) := by
  refine .bind .peek fun token => ?_
  split
  · exact .map Value.parse_grammatical
  · refine .bind .next fun token => ?_
    split
    · exact .map (reference_grammatical rfl)
    · exact .map (reference_grammatical rfl)
    · exact .pure _

theorem expectValue_grammatical {context : Context} {what : String} :
    Grammatical (expectValue context what) := by
  refine .bind operand_grammatical fun value => ?_
  split
  · exact .pure _
  · exact .fail rfl

theorem parseOrigin_grammatical {context : Context} :
    Grammatical (parseOrigin context) :=
  .bind expectValue_grammatical fun _ =>
    .bind (checkWidth_grammatical rfl) fun _ =>
      .bind endOfStatement_grammatical fun _ => .pure _

theorem parseInclude_grammatical : Grammatical parseInclude := by
  refine .bind .next fun token => ?_
  split
  · exact .bind endOfStatement_grammatical fun _ => .pure _
  · exact .fail rfl

theorem parseOpenScope_grammatical : Grammatical parseOpenScope := by
  refine .bind .next fun token => ?_
  split
  · exact .bind endOfStatement_grammatical fun _ => .pure _
  · exact .fail rfl

theorem sequenceValue_grammatical {context : Context} :
    Grammatical (sequenceValue context) := by
  refine .bind .peek fun token => ?_
  split
  · exact .map Value.parse_grammatical
  · exact .map expectValue_grammatical

theorem moreInSequence_grammatical : Grammatical moreInSequence := by
  refine .bind .next fun token => ?_
  split
  · exact .pure _
  · exact .pure _
  · exact .pure _
  · exact .fail rfl

theorem byteElement_grammatical {context : Context} :
    Grammatical (byteElement context) := by
  refine .bind .peek fun token => ?_
  split
  · exact .bind .next fun _ => .pure _
  · exact .bind sequenceValue_grammatical fun _ =>
      .bind (checkWidth_grammatical rfl) fun _ => .pure _

theorem wordElement_grammatical {context : Context} :
    Grammatical (wordElement context) :=
  .bind sequenceValue_grammatical fun _ =>
    .bind (checkWidth_grammatical rfl) fun _ => .pure _

theorem sequenceOf_grammatical {α : Type} {element : Parser (List α)}
    (he : Grammatical element) {n : Nat} : Grammatical (sequenceOf element n) := by
  induction n with
  | zero => exact .pure _
  | succ n ih =>
    refine .bind he fun first => .bind moreInSequence_grammatical fun more => ?_
    split
    · exact .map ih
    · exact .pure _

theorem moreInSequence_spends {r s : Reading} (h : moreInSequence r = .ok true s) :
    s.cursor.rest.length < r.cursor.rest.length := by
  change EStateM.bind Parser.next _ r = _ at h
  unfold EStateM.bind at h
  split at h
  · next token u hnext =>
    obtain ⟨l, p⟩ := token
    cases l with
    | comma =>
      cases h
      exact (next_spends hnext).resolve_left fun hend => by cases hend.1
    | _ => cases h
  · cases h

theorem sequenceOf_sameBelow {α : Type} {element : Parser (List α)} (he : Grammatical element)
    {n k m : Nat} (h : ∀ j < n, SameBelow j (sequenceOf element k) (sequenceOf element m)) :
    SameBelow n (sequenceOf element (k + 1)) (sequenceOf element (m + 1)) := by
  refine .bind_same he (.refl _) fun first => (SameBelow.refl _).bind fun {r more s} hr hmore => ?_
  cases more with
  | false => rfl
  | true =>
    have hlt := moreInSequence_spends hmore
    have hsame : SameBelow s.cursor.rest.length (do return first ++ (← sequenceOf element k))
        (do return first ++ (← sequenceOf element m)) :=
      .bind_same (sequenceOf_grammatical he) (h _ (by omega)) fun _ => .refl _
    exact hsame s (Nat.le_refl _)

/-- A comma takes a byte, so there are no more elements than bytes behind the first. -/
theorem sequenceOf_enough {α : Type} {element : Parser (List α)} (he : Grammatical element)
    (n m : Nat) (h : n ≤ m) :
    SameBelow n (sequenceOf element (n + 1)) (sequenceOf element (m + 1)) := by
  induction n generalizing m with
  | zero => exact sequenceOf_sameBelow he fun j hj => absurd hj (Nat.not_lt_zero j)
  | succ n ih =>
    obtain ⟨m, rfl⟩ := Nat.exists_eq_add_of_le' (Nat.le_trans (Nat.le_add_left 1 n) h)
    exact sequenceOf_sameBelow he fun j hj =>
      (ih m (Nat.le_of_succ_le_succ h)).mono (Nat.le_of_lt_succ hj)

theorem sequence_grammatical {α : Type} {element : Parser (List α)}
    (he : Grammatical element) : Grammatical (sequence element) :=
  .bounded (fun _ => sequenceOf_grammatical he) (sequenceOf_enough he)

theorem parseNamed_grammatical {context : Context} {name : Name} {column : Nat} :
    Grammatical (parseNamed context name column) := by
  refine .bind .peek fun token => ?_
  split
  · split
    · exact .fail rfl
    · exact .bind .next fun _ => .bind expectValue_grammatical fun _ =>
        .bind (checkWidth_grammatical rfl) fun _ =>
          .bind endOfStatement_grammatical fun _ => .pure _
  · split
    · exact .fail rfl
    · exact .bind skipLineEnd_grammatical fun _ => .pure _

theorem directOperand_grammatical {context : Context} {m : Mnemonic} {v : Int32} :
    Grammatical (directOperand context m v) := by
  refine .bind (checkWidth_grammatical rfl) fun _ => .bind .next fun token => ?_
  split
  · exact .pure _
  · exact .pure _
  · refine .bind .next fun token => ?_
    split
    · exact .bind endOfStatement_grammatical fun _ => .pure _
    · exact .bind endOfStatement_grammatical fun _ => .pure _
    · exact .fail rfl
  · exact .fail rfl

theorem indirectMode_grammatical : Grammatical indirectMode := by
  refine .bind .next fun token => ?_
  split
  · exact .bind expect_grammatical fun _ =>
      .bind expect_grammatical fun _ => .pure _
  · refine .bind .peek fun token => ?_
    split
    · exact .bind .next fun _ => .bind expect_grammatical fun _ => .pure _
    · exact .pure _
  · exact .fail rfl

theorem indirectOperand_grammatical {context : Context} :
    Grammatical (indirectOperand context) := by
  refine .bind expectValue_grammatical fun value =>
    .bind (checkWidth_grammatical rfl) fun _ => .bind indirectMode_grammatical fun mode =>
      .bind endOfStatement_grammatical fun _ => ?_
  split
  · exact .bind (checkWidth_grammatical rfl) fun _ => .pure _
  · exact .pure _

theorem immediateOperand_grammatical {context : Context} :
    Grammatical (immediateOperand context) :=
  .bind expectValue_grammatical fun _ => .bind (checkWidth_grammatical rfl) fun _ =>
    .bind endOfStatement_grammatical fun _ => .pure _

theorem parseOperand_grammatical {context : Context} {m : Mnemonic} :
    Grammatical (parseOperand context m) := by
  refine .bind operand_grammatical fun value => ?_
  split
  · exact directOperand_grammatical
  · exact .pure _
  · exact .pure _
  · exact .bind endOfStatement_grammatical fun _ => .pure _
  · exact immediateOperand_grammatical
  · exact indirectOperand_grammatical
  · exact .fail rfl

theorem parseFrom_grammatical {context : Context} {token : Token Name} :
    Grammatical (parseFrom context token) := by
  unfold parseFrom
  split
  · exact .bind parseOperand_grammatical fun _ => .pure _
  · exact .pure _
  · exact parseOrigin_grammatical
  · exact .bind expect_grammatical fun _ => parseOrigin_grammatical
  · exact parseInclude_grammatical
  · exact .bind skipLineEnd_grammatical fun _ => .pure _
  · exact .map (sequence_grammatical byteElement_grammatical)
  · exact .map (sequence_grammatical wordElement_grammatical)
  · exact parseOpenScope_grammatical
  · exact .bind endOfStatement_grammatical fun _ => .pure _
  · exact parseNamed_grammatical
  · exact .pure _

theorem firstToken_grammatical : Grammatical firstToken := by
  refine .bind .next fun token => ?_
  split
  · exact .next
  · exact .pure _

/-- A relation that reading and looking ahead keep is kept by reading a statement. -/
theorem parse_grammatical {context : Context} : Grammatical (Statement.parse context) :=
  .bind firstToken_grammatical fun _ => parseFrom_grammatical

end Statement

namespace Statement

theorem parse_source (context : Context) (r : Reading) :
    ((Statement.parse context).after r).source = r.source :=
  parse_grammatical.follows Reading.kept_sameSource r

theorem parse_suffix (context : Context) (r : Reading) :
    ((Statement.parse context).after r).cursor.rest <:+ r.cursor.rest :=
  parse_grammatical.follows Reading.kept_forward r

/-- A statement reads at least one byte, also when it fails, unless the input has ended. -/
theorem parse_length_lt (context : Context) (r : Reading) :
    (∃ s, Statement.parse context r = .ok .endOfInput s) ∨
      ((Statement.parse context).after r).cursor.rest.length < r.cursor.rest.length := by
  rcases r.cursor.next_length_lt with ⟨p, hp⟩ | hlt
  · refine .inl ⟨{ r with cursor := r.cursor.next.2 }, ?_⟩
    have hnext : Parser.next r =
        .ok ⟨.endOfInput, p⟩ { r with cursor := r.cursor.next.2 } := by
      unfold Parser.next
      split
      · next token cursor hc =>
        rw [hc] at hp
        cases hp
        rw [hc]
        rfl
      · next hc =>
        rw [hc] at hp
        cases hp
    change EStateM.bind (EStateM.bind Parser.next _) _ r = _
    simp only [EStateM.bind, hnext]
    rfl
  · refine .inr ?_
    have h1 : Reading.Forward (Parser.next.after r) (firstToken.after r) :=
      Follows.after_bind Reading.kept_forward Parser.next (fun token => by
        split
        · exact Reading.kept_forward.next
        · exact Reading.kept_forward.refl) r
    have h2 : Reading.Forward (firstToken.after r) ((Statement.parse context).after r) :=
      Follows.after_bind Reading.kept_forward firstToken
        (fun _ => parseFrom_grammatical.follows Reading.kept_forward) r
    have h3 := (h2.trans h1).length_le
    rw [Parser.next_cursor] at h3
    omega

end Statement

end Assembler6502
