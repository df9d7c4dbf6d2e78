import Stencil.Offsets.Sources
import Stencil.Proofs.Offsets.Bodies

/-!
Whole sources by byte offsets. Main statement: reading a header, a body or both takes no wrong step
for any source, and gives what the reading of the text gives; a body that is asked for from inside a
character is the only exception.
-/

namespace Stencil.Offsets

open Stencil.Body
open Stencil.Header

variable {source t : Text} {current : Nat}

/-- What stands in front of a separator of one character, or else all of the text. -/
theorem breakOn?_getD (d : Char) (t : Text) :
    ((Text.breakOn? [d] t).map (·.1)).getD t = t.takeWhile (· != d) := by
  induction t with
  | nil => rfl
  | cons c t ih =>
      have test : [d].isPrefixOf (c :: t) = (d == c) := Bool.and_true _
      rw [Text.breakOn?, test]
      by_cases same : d = c
      · subst same
        rw [if_pos (beq_self_eq_true d), List.takeWhile_cons_of_neg (by simp)]
        rfl
      · rw [if_neg (by simpa using same), List.takeWhile_cons_of_pos (by simpa using Ne.symm same), ← ih]
        cases Text.breakOn? [d] t <;> rfl

theorem lineEnd_eq {start : Nat} {line : Text} (h : source.GoesOn start line) :
    lineEnd source start line = start + Text.byteSize (line.takeWhile (· != '\n')) := by
  rw [lineEnd, ← breakOn?_getD]
  cases Text.breakOn? ['\n'] line with
  | none => exact h.byteSize
  | some r => rfl

theorem mark_ne_lineBreak (d : Header.Directive) : ∀ c ∈ d.mark, (c != '\n') = true := by
  have every : d.mark.all (· != '\n') = true := by cases d <;> decide
  exact List.all_eq_true.mp every

theorem lineAt?_eq (h : source.GoesOn current t) :
    lineAt? source current = .ok ((directive? (Text.trimStart t)).map fun r =>
      ⟨current + Text.byteSize (t.takeWhile Text.isBlank), r.1, (splitLine r.2).1,
        current + Text.byteSize (t.takeWhile Text.isBlank) + r.1.mark.byteSize +
          (splitLine r.2).1.byteSize⟩) := by
  have line : source.GoesOn (current + Text.byteSize (t.takeWhile Text.isBlank)) (Text.trimStart t) :=
    (h.span Text.isBlank).skip
  rw [lineAt?, h.textFrom, ok_bind, difference_trimStart, ok_bind, line.textFrom, ok_bind]
  cases found : directive? (Text.trimStart t) with
  | none => rfl
  | some r =>
      obtain ⟨d, rest⟩ := r
      rw [directive?_eq_some found] at line
      have size : Text.byteSize ((d.mark ++ rest).takeWhile (· != '\n')) =
          d.mark.byteSize + (splitLine rest).1.byteSize := by
        rw [List.takeWhile_append_of_pos (mark_ne_lineBreak d), Text.byteSize_append]
        rfl
      have content : textBetween source
          (current + Text.byteSize (t.takeWhile Text.isBlank) + d.mark.byteSize)
          (current + Text.byteSize (t.takeWhile Text.isBlank) + d.mark.byteSize +
            (splitLine rest).1.byteSize) = .ok (splitLine rest).1 :=
        (line.skip.span (· != '\n')).textBetween
      simp only [directive?_eq_some found, lineEnd_eq line, size, ← Nat.add_assoc, content]
      rfl

theorem lineBreak_of_cons {rest behind : Text} {c : Char}
    (h : rest.dropWhile (· != '\n') = c :: behind) : c = '\n' := by
  have stops := List.head?_dropWhile_not (· != '\n') rest
  rw [h] at stops
  exact bne_eq_false_iff_eq.mp stops

/-- Where the reading goes on after a line. -/
theorem nextLine_eq {start : Nat} {d : Header.Directive} {rest : Text}
    (h : source.GoesOn start (d.mark ++ rest)) :
    min (start + d.mark.byteSize + (splitLine rest).1.byteSize + 1) source.byteSize =
      start + Text.byteSize (d.mark ++ (splitLine rest).1 ++ lineBreak rest) := by
  have stop : source.GoesOn (start + d.mark.byteSize + (splitLine rest).1.byteSize)
      (rest.dropWhile (· != '\n')) := (h.skip.span (· != '\n')).skip
  rw [Text.byteSize_append, Text.byteSize_append, lineBreak]
  cases last : rest.dropWhile (· != '\n') with
  | nil =>
      rw [last] at stop
      have size : source.byteSize = start + d.mark.byteSize + (splitLine rest).1.byteSize :=
        stop.byteSize
      change min _ _ = start + (d.mark.byteSize + (splitLine rest).1.byteSize + 0)
      omega
  | cons c behind =>
      rw [last, lineBreak_of_cons last] at stop
      rw [lineBreak_of_cons last]
      have inside := stop.lt_byteSize
      change min _ _ = start + (d.mark.byteSize + (splitLine rest).1.byteSize + 1)
      omega

theorem goesOn_nextLine {start : Nat} {d : Header.Directive} {rest : Text}
    (h : source.GoesOn start (d.mark ++ rest)) :
    source.GoesOn (start + Text.byteSize (d.mark ++ (splitLine rest).1 ++ lineBreak rest))
      (splitLine rest).2 := by
  have whole : d.mark ++ rest =
      (d.mark ++ (splitLine rest).1 ++ lineBreak rest) ++ (splitLine rest).2 := by
    rw [List.append_assoc, List.append_assoc, ← List.append_assoc (splitLine rest).1, splitLine_append]
  rw [whole] at h
  exact h.skip

section Lines

variable {d : Header.Directive} {rest : Text}

theorem goesOn_directive (h : source.GoesOn current t)
    (found : directive? (Text.trimStart t) = some (d, rest)) :
    source.GoesOn (current + Text.byteSize (t.takeWhile Text.isBlank)) (d.mark ++ rest) := by
  rw [← directive?_eq_some found]
  exact (h.span Text.isBlank).skip

theorem declarationsFrom_refused {e : Header.Error} (h : source.GoesOn current t)
    (found : directive? (Text.trimStart t) = some (d, rest))
    (refused : d.declare (current + Text.byteSize (t.takeWhile Text.isBlank))
      (Text.trim (splitLine rest).1) = .error e) :
    declarationsFrom source current = .ok (.error e) := by
  rw [declarationsFrom, lineAt?_eq h, found]
  simp only [Option.map_some, refused]

theorem declarationsFrom_accepted {declared : Declaration} (h : source.GoesOn current t)
    (found : directive? (Text.trimStart t) = some (d, rest))
    (accepted : d.declare (current + Text.byteSize (t.takeWhile Text.isBlank))
      (Text.trim (splitLine rest).1) = .ok declared) :
    declarationsFrom source current =
      (declarationsFrom source (current + Text.byteSize (t.takeWhile Text.isBlank) +
        Text.byteSize (d.mark ++ (splitLine rest).1 ++ lineBreak rest))).map fun later =>
          later.map fun r =>
            ((current + Text.byteSize (t.takeWhile Text.isBlank), declared) :: r.1, r.2) := by
  have line := goesOn_directive h found
  have forward : current < current + Text.byteSize (t.takeWhile Text.isBlank) +
      Text.byteSize (d.mark ++ (splitLine rest).1 ++ lineBreak rest) := by
    have pos : 0 < d.mark.byteSize := by cases d <;> decide
    rw [Text.byteSize_append, Text.byteSize_append]
    omega
  rw [declarationsFrom, lineAt?_eq h, found]
  simp only [Option.map_some, accepted, nextLine_eq line, if_pos forward]

end Lines

theorem declarationsFrom_eq (h : source.GoesOn current t) :
    declarationsFrom source current = .ok ((declarations current t).map fun r => (r.1, r.2.start)) := by
  fun_induction declarations current t with
  | case1 current t none =>
      rw [declarationsFrom, lineAt?_eq h, none]
      rfl
  | case2 current t d rest found _ start e refused => exact declarationsFrom_refused h found refused
  | case3 current t d rest found _ start next declared accepted e failed ih =>
      refine (declarationsFrom_accepted h found accepted).trans ?_
      rw [ih (goesOn_nextLine (goesOn_directive h found)), failed]
      rfl
  | case4 current t d rest found _ start next declared accepted more body done ih =>
      refine (declarationsFrom_accepted h found accepted).trans ?_
      rw [ih (goesOn_nextLine (goesOn_directive h found)), done]
      rfl

theorem goesOn_body (h : source.GoesOn current t) :
    ∀ r, declarations current t = .ok r → source.GoesOn r.2.start r.2.text := by
  fun_induction declarations current t with
  | case1 current t none =>
      intro r done
      cases done
      exact h
  | case2 => exact nofun
  | case3 => exact nofun
  | case4 current t d rest found _ start next declared accepted more body later ih =>
      intro r done
      cases done
      exact ih (goesOn_nextLine (goesOn_directive h found)) (more, body) later

theorem scanned_eq (source : Text) : scanned source = .ok (declarations 0 source) := by
  rw [scanned, declarationsFrom_eq (Text.GoesOn.zero source), ok_bind]
  cases done : declarations 0 source with
  | error e => rfl
  | ok r =>
      obtain ⟨ds, body⟩ := r
      have goesOn := goesOn_body (Text.GoesOn.zero source) _ done
      change textFrom source body.start >>= _ = _
      rw [goesOn.textFrom]
      rfl

theorem fragmentHeader_eq (source : Text) :
    fragmentHeader source = .ok (Header.ofFragment source) := by
  rw [fragmentHeader, scanned_eq, ok_bind, ofFragment]
  cases declarations 0 source <;> rfl

theorem templateHeader_eq (source : Text) :
    templateHeader source = .ok (Header.ofTemplate source) := by
  rw [templateHeader, scanned_eq, ok_bind, ofTemplate]
  cases declarations 0 source with
  | error e => rfl
  | ok r =>
      obtain ⟨ds, body⟩ := r
      rcases params : paramsOf ds with _ | ⟨model, _ | ⟨second, more⟩⟩
      · simp only [params]
        rfl
      · simp only [params]
        rfl
      · simp only [params]
        rfl

theorem header_eq (kind : SourceKind) (source : Text) :
    header kind source = .ok (Header.ofSource kind source) := by
  cases kind with
  | template => exact templateHeader_eq source
  | tag => exact fragmentHeader_eq source
  | layout => exact fragmentHeader_eq source

theorem exists_declarations {kind : SourceKind} {header : Header}
    (h : Header.ofSource kind source = .ok header) :
    ∃ ds, declarations 0 source = .ok (ds, header.body) := by
  cases done : declarations 0 source with
  | error e =>
      cases kind <;> simp only [Header.ofSource, ofTemplate, ofFragment, done] at h <;> cases h
  | ok r =>
      obtain ⟨ds, body⟩ := r
      refine ⟨ds, ?_⟩
      cases kind with
      | template =>
          simp only [Header.ofSource, ofTemplate, done] at h
          split at h
          · cases h
          · cases h
            rfl
          · cases h
      | tag =>
          simp only [Header.ofSource, ofFragment, done] at h
          cases h
          rfl
      | layout =>
          simp only [Header.ofSource, ofFragment, done] at h
          cases h
          rfl

theorem ofSource?_body {kind : SourceKind} {header : Header}
    (h : Header.ofSource kind source = .ok header) :
    ofSource? source header.body.start = some header.body := by
  obtain ⟨ds, done⟩ := exists_declarations h
  have goesOn : source.GoesOn header.body.start header.body.text :=
    goesOn_body (Text.GoesOn.zero source) _ done
  have inside : header.body.start ≤ source.byteSize := by
    rw [goesOn.byteSize]
    exact Nat.le_add_right _ _
  rw [ofSource?, goesOn.dropBytes?, Nat.min_eq_left inside]
  rfl

theorem read_eq (kind : SourceKind) (source : Text) :
    read kind source = .ok (Source.read kind source) := by
  rw [read, header_eq, ok_bind, Source.read]
  cases found : Header.ofSource kind source with
  | error e => rfl
  | ok header =>
      simp only [pass_of_some kind collect id (ofSource?_body found), Body.read]
      cases ended : (header.body.traverse kind collect id).run #[] with
      | ok _ events =>
          simp only [guarded_run_ok ended]
          rfl
      | error e events =>
          simp only [guarded_run_error ended]
          rfl

/-- No reading of a source by offsets takes a wrong step, and each gives what the reading of the text
gives. Only a body that is asked for from inside a character is not read. -/
structure ReadSafely (source : Text) : Prop where
  template : templateHeader source = .ok (Header.ofTemplate source)
  fragment : fragmentHeader source = .ok (Header.ofFragment source)
  whole : ∀ kind, read kind source = .ok (Source.read kind source)
  wrong : ∀ {ε σ : Type} (start : Nat) (kind : SourceKind) (visit : Event → EStateM ε σ Unit)
    (raise : Body.Error → ε) (s : σ),
    (∃ fault after, (pass source start kind visit raise).run s = .error (.fault fault) after) ↔
      start < source.byteSize ∧ ¬ source.IsBoundary start
  body : ∀ {ε σ : Type} (start : Nat) (body : Body) (kind : SourceKind)
    (visit : Event → EStateM ε σ Unit) (raise : Body.Error → ε),
    ofSource? source start = some body →
      pass source start kind visit raise = guarded (body.traverse kind visit raise)

theorem pass_faults_iff {ε σ : Type} (source : Text) (start : Nat) (kind : SourceKind)
    (visit : Event → EStateM ε σ Unit) (raise : Body.Error → ε) (s : σ) :
    (∃ fault after, (pass source start kind visit raise).run s = .error (.fault fault) after) ↔
      start < source.byteSize ∧ ¬ source.IsBoundary start := by
  rw [← ofSource?_eq_none_iff]
  constructor
  · rintro ⟨fault, after, wrong⟩
    cases found : ofSource? source start with
    | none => rfl
    | some body =>
        rw [pass_of_some kind visit raise found] at wrong
        cases ended : (body.traverse kind visit raise).run s with
        | ok a last => cases (guarded_run_ok ended).symm.trans wrong
        | error e last => cases (guarded_run_error ended).symm.trans wrong
  · intro none
    rw [pass_of_none kind visit raise none]
    exact ⟨.insideCharacter, s, rfl⟩

theorem readSafely (source : Text) : ReadSafely source where
  template := templateHeader_eq source
  fragment := fragmentHeader_eq source
  whole := fun kind => read_eq kind source
  wrong := pass_faults_iff source
  body := fun _ _ kind visit raise found => pass_of_some kind visit raise found

end Stencil.Offsets
