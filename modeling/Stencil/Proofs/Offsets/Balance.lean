import Stencil.Proofs.Offsets.Brackets
import Stencil.Proofs.Offsets.Extents

/-!
Which bracket closes another, said of the bytes of a source. The code in front of a closing bracket
is a sequence of literals and single bytes, and among the single bytes the brackets are balanced.
Main statement: the search finds exactly such a bracket, there is at most one, and by characters the
same one is found.
-/

namespace Stencil.Offsets

open Stencil.Code

inductive Literal (source : Text) (offset : Nat) : Nat → Prop
  | string {stop} : source.encode[offset]? = some '"'.toUInt8 →
      StringInside source.encode (offset + 1) stop → source.encode[stop]? = some '"'.toUInt8 →
      Literal source offset (stop + 1)
  | raw {hashes stop} : OpensRaw source.encode offset hashes →
      IsFirst (ClosesRaw source.encode hashes) (offset + hashes + 2) stop →
      Literal source offset (stop + 1 + hashes)
  | quote {stop} : QuoteLiteral source offset stop → Literal source offset stop

/-- Whether a literal starts at an offset. A string or raw string may start and never end. -/
def OpensLiteral (source : Text) (offset : Nat) : Prop :=
  source.encode[offset]? = some '"'.toUInt8 ∨ (∃ hashes, OpensRaw source.encode offset hashes) ∨
    ∃ stop, QuoteLiteral source offset stop

/-- Tokens one behind the other from an offset to another, with the bytes of those that are single
bytes. -/
inductive Tokens (source : Text) : Nat → List UInt8 → Nat → Prop
  | done {offset} : Tokens source offset [] offset
  | literal {offset next singles stop} : Literal source offset next →
      Tokens source next singles stop → Tokens source offset singles stop
  | single {offset b singles stop} : source.encode[offset]? = some b →
      ¬ OpensLiteral source offset → Tokens source (offset + 1) singles stop →
      Tokens source offset (b :: singles) stop

/-- Whether bytes close all brackets that they open, and as many more as are open before them, and
never one that is not open. -/
def Balanced (bracket : Bracket) (depth : Nat) (singles : List UInt8) : Prop :=
  (∀ front, front <+: singles →
    front.count bracket.closing.toUInt8 ≤ depth + front.count bracket.opening.toUInt8) ∧
  singles.count bracket.closing.toUInt8 = depth + singles.count bracket.opening.toUInt8

/-- Whether the bracket at an offset closes the one in front of another offset: between them stand
tokens, among whose single bytes the brackets are balanced. -/
def Closes (source : Text) (bracket : Bracket) (start stop : Nat) : Prop :=
  source.encode[stop]? = some bracket.closing.toUInt8 ∧
    ∃ singles, Tokens source start singles stop ∧ Balanced bracket 0 singles

variable {source : Text} {bracket : Bracket} {offset next stop depth : Nat} {b : UInt8}
  {singles : List UInt8}

section Balanced

theorem opening_ne_closing (bracket : Bracket) :
    bracket.opening.toUInt8 ≠ bracket.closing.toUInt8 := by
  cases bracket <;> decide

theorem balanced_nil : Balanced bracket depth [] ↔ depth = 0 := by
  constructor
  · intro h
    exact h.2.symm
  · rintro rfl
    refine ⟨fun front isFront => ?_, rfl⟩
    rw [List.prefix_nil.mp isFront]
    exact Nat.zero_le _

theorem balanced_cons {after : Nat}
    (step : depth + [b].count bracket.opening.toUInt8 =
      after + [b].count bracket.closing.toUInt8) :
    Balanced bracket depth (b :: singles) ↔ Balanced bracket after singles := by
  have counts (l : List UInt8) :
      (b :: l).count bracket.closing.toUInt8 =
          [b].count bracket.closing.toUInt8 + l.count bracket.closing.toUInt8 ∧
        (b :: l).count bracket.opening.toUInt8 =
          [b].count bracket.opening.toUInt8 + l.count bracket.opening.toUInt8 := by
    rw [← List.singleton_append, List.count_append, List.count_append]
    exact ⟨rfl, rfl⟩
  have whole := counts singles
  refine and_congr ⟨fun fronts front isFront => ?_, fun fronts front isFront => ?_⟩ (by omega)
  · have longer := fronts (b :: front) (List.cons_prefix_cons.mpr ⟨rfl, isFront⟩)
    have same := counts front
    omega
  · rcases List.prefix_cons_iff.mp isFront with rfl | ⟨rest, rfl, isRest⟩
    · exact Nat.zero_le _
    · have shorter := fronts rest isRest
      have same := counts rest
      omega

theorem balanced_opening : Balanced bracket depth (bracket.opening.toUInt8 :: singles) ↔
    Balanced bracket (depth + 1) singles := by
  apply balanced_cons
  rw [List.count_singleton_self, List.count_singleton, if_neg]
  simpa using opening_ne_closing bracket

theorem balanced_closing : Balanced bracket (depth + 1) (bracket.closing.toUInt8 :: singles) ↔
    Balanced bracket depth singles := by
  apply balanced_cons
  rw [List.count_singleton_self, List.count_singleton, if_neg]
  simpa using (opening_ne_closing bracket).symm

/-- A bracket that is not open cannot be closed. -/
theorem not_balanced_closing : ¬ Balanced bracket 0 (bracket.closing.toUInt8 :: singles) := by
  intro balanced
  have first := balanced.1 [bracket.closing.toUInt8] (List.cons_prefix_cons.mpr ⟨rfl, List.nil_prefix⟩)
  rw [List.count_singleton_self, List.count_singleton, if_neg] at first
  · exact absurd first (Nat.not_succ_le_zero 0)
  · simpa using (opening_ne_closing bracket).symm

theorem balanced_other (noOpening : b ≠ bracket.opening.toUInt8)
    (noClosing : b ≠ bracket.closing.toUInt8) :
    Balanced bracket depth (b :: singles) ↔ Balanced bracket depth singles := by
  apply balanced_cons
  rw [List.count_singleton, List.count_singleton, if_neg (by simpa using noOpening),
    if_neg (by simpa using noClosing)]

end Balanced

section Rounds

theorem Literal.opens (h : Literal source offset next) : OpensLiteral source offset := by
  cases h with
  | string quote _ _ => exact .inl quote
  | raw opens _ => exact .inr (.inl ⟨_, opens⟩)
  | quote literal => exact .inr (.inr ⟨_, literal⟩)

theorem OpensLiteral.getElem? (h : OpensLiteral source offset) :
    ∃ b, source.encode[offset]? = some b ∧ (b = '"'.toUInt8 ∨ b = 'r'.toUInt8 ∨ b = '\''.toUInt8) := by
  rcases h with quote | ⟨hashes, opens⟩ | ⟨stop, literal⟩
  · exact ⟨_, quote, .inl rfl⟩
  · exact ⟨_, opens.mark, .inr (.inl rfl)⟩
  · exact ⟨_, literal.quote, .inr (.inr rfl)⟩

theorem not_opensLiteral_of_closing (h : source.encode[offset]? = some bracket.closing.toUInt8) :
    ¬ OpensLiteral source offset := by
  intro opens
  obtain ⟨b, here, start⟩ := opens.getElem?
  cases here.symm.trans h
  cases bracket <;> revert start <;> decide

theorem Literal.lt (h : Literal source offset next) : offset < next := by
  cases h with
  | string _ inside _ =>
      have ordered := inside.le
      omega
  | raw _ first =>
      have ordered := first.le
      omega
  | quote literal => exact literal.lt

theorem round_of_string (h : source.encode[offset]? = some '"'.toUInt8) :
    round source bracket depth offset =
      (skipString source.encode (offset + 1)).map (behindLiteral depth) := by
  rw [round, byteAt_of_some h, ok_bind, if_pos rfl]
  cases skipString source.encode (offset + 1) with
  | error fault => rfl
  | ok found => rfl

theorem round_of_quote (h : source.encode[offset]? = some '\''.toUInt8) :
    round source bracket depth offset = (skipQuote source offset).map (Round.onward depth) := by
  rw [round, byteAt_of_some h, ok_bind, if_neg (by decide), if_pos rfl]
  cases skipQuote source offset with
  | error fault => rfl
  | ok next => rfl

theorem round_of_raw {hashes : Nat} (h : OpensRaw source.encode offset hashes) :
    round source bracket depth offset =
      (skipRaw source.encode hashes (offset + hashes + 2)).map (behindLiteral depth) := by
  obtain ⟨found, counted, opens⟩ := rawHashes?_spec (lt_length_of_getElem? h.mark)
  rw [(opens hashes).mpr h] at counted
  rw [round, byteAt_of_some h.mark, ok_bind, if_neg (by decide), if_neg (by decide), counted, ok_bind]
  change (skipRaw source.encode hashes (offset + hashes + 2) >>= _) = _
  cases skipRaw source.encode hashes (offset + hashes + 2) with
  | error fault => rfl
  | ok found => rfl

/-- A round at a literal leads behind it. -/
theorem round_of_literal (h : Literal source offset next) :
    round source bracket depth offset = .ok (.onward depth next) := by
  cases h with
  | string quote inside closing =>
      obtain ⟨found, skipped, ends⟩ := skipString_spec source.encode (offset + 1)
      rw [round_of_string quote, skipped, (ends _).mpr ⟨_, inside, closing, rfl⟩]
      rfl
  | raw opens first =>
      obtain ⟨found, skipped, ends⟩ := skipRaw_spec source.encode _ _
      rw [round_of_raw opens, skipped, (ends _).mpr ⟨_, first, rfl⟩]
      rfl
  | quote literal =>
      rw [round_of_quote literal.quote, literal.skipQuote]
      rfl

/-- A round at a literal that never ends gives up. -/
theorem round_of_unclosed (opens : OpensLiteral source offset)
    (never : ∀ next, ¬ Literal source offset next) :
    round source bracket depth offset = .ok .never := by
  rcases opens with quote | ⟨hashes, opens⟩ | ⟨stop, literal⟩
  · obtain ⟨found, skipped, ends⟩ := skipString_spec source.encode (offset + 1)
    rw [round_of_string quote, skipped]
    cases found with
    | none => rfl
    | some next =>
        obtain ⟨stop, inside, closing, -⟩ := (ends next).mp rfl
        exact absurd (.string quote inside closing) (never _)
  · obtain ⟨found, skipped, ends⟩ := skipRaw_spec source.encode hashes (offset + hashes + 2)
    rw [round_of_raw opens, skipped]
    cases found with
    | none => rfl
    | some next =>
        obtain ⟨stop, first, -⟩ := (ends next).mp rfl
        exact absurd (.raw opens first) (never _)
  · exact absurd (.quote literal) (never stop)

theorem round_of_single (here : source.encode[offset]? = some b)
    (single : ¬ OpensLiteral source offset) :
    round source bracket depth offset = bracketRound bracket depth offset b := by
  have noString : b ≠ '"'.toUInt8 := by
    rintro rfl
    exact single (.inl here)
  by_cases quote : b = '\''.toUInt8
  · subst quote
    have alone : ∀ stop, ¬ QuoteLiteral source offset stop :=
      fun stop literal => single (.inr (.inr ⟨stop, literal⟩))
    rw [round_of_quote here, skipQuote_of_alone here alone]
    cases bracket <;> rfl
  · obtain ⟨found, counted, opens⟩ := rawHashes?_spec (lt_length_of_getElem? here)
    have none : found = none := by
      cases found with
      | none => rfl
      | some hashes => exact absurd (.inr (.inl ⟨hashes, (opens hashes).mp rfl⟩)) single
    rw [none] at counted
    obtain ⟨rest, goOn⟩ := exists_goOn here
    exact round_of_goOn goOn noString quote counted

end Rounds

section Search

theorem closingFrom_of_literal (h : Literal source offset next) :
    closingFrom source bracket depth offset = closingFrom source bracket depth next := by
  obtain ⟨b, here, -⟩ := h.opens.getElem?
  exact closingFrom_onward (lt_length_of_getElem? here) (round_of_literal h) h.lt

theorem closingFrom_of_unclosed (opens : OpensLiteral source offset)
    (never : ∀ next, ¬ Literal source offset next) :
    closingFrom source bracket depth offset = .ok none := by
  obtain ⟨b, here, -⟩ := opens.getElem?
  rw [closingFrom, if_pos (lt_length_of_getElem? here), round_of_unclosed opens never]

theorem closingFrom_of_single (here : source.encode[offset]? = some b)
    (single : ¬ OpensLiteral source offset) :
    closingFrom source bracket depth offset =
      if b = bracket.opening.toUInt8 then closingFrom source bracket (depth + 1) (offset + 1)
      else if b = bracket.closing.toUInt8 then
        if depth = 0 then .ok (some offset) else closingFrom source bracket (depth - 1) (offset + 1)
      else closingFrom source bracket depth (offset + 1) := by
  have inside := lt_length_of_getElem? here
  have next : round source bracket depth offset = _ := round_of_single here single
  rw [bracketRound] at next
  split
  · rename_i opening
    rw [if_pos opening] at next
    exact closingFrom_onward inside next (Nat.lt_succ_self offset)
  · rename_i noOpening
    rw [if_neg noOpening] at next
    split
    · rename_i closing
      rw [if_pos closing] at next
      split
      · rename_i outermost
        rw [if_pos outermost] at next
        rw [closingFrom, if_pos inside, next]
        rfl
      · rename_i inner
        rw [if_neg inner, difference_of_le (Nat.pos_of_ne_zero inner)] at next
        exact closingFrom_onward inside next (Nat.lt_succ_self offset)
    · rename_i noClosing
      rw [if_neg noClosing] at next
      exact closingFrom_onward inside next (Nat.lt_succ_self offset)

theorem Tokens.le (h : Tokens source offset singles stop) : offset ≤ stop := by
  induction h with
  | done => exact Nat.le_refl _
  | literal literal _ ih => exact Nat.le_trans (Nat.le_of_lt literal.lt) ih
  | single _ _ _ ih => exact Nat.le_of_succ_le ih

theorem Literal.unique (h : Literal source offset next) (h' : Literal source offset stop) :
    next = stop := by
  have same : round source .paren 0 offset = _ := round_of_literal h
  rw [round_of_literal h'] at same
  cases same
  rfl

theorem tokens_of_literal (h : Literal source offset next) (further : stop ≠ offset) :
    Tokens source offset singles stop ↔ Tokens source next singles stop := by
  constructor
  · intro tokens
    cases tokens with
    | done => exact absurd rfl further
    | literal literal later =>
        rw [h.unique literal]
        exact later
    | single _ single _ => exact absurd h.opens single
  · exact .literal h

theorem tokens_of_single (here : source.encode[offset]? = some b)
    (single : ¬ OpensLiteral source offset) :
    Tokens source offset singles stop ↔ (singles = [] ∧ stop = offset) ∨
      ∃ rest, singles = b :: rest ∧ Tokens source (offset + 1) rest stop := by
  constructor
  · intro tokens
    cases tokens with
    | done => exact .inl ⟨rfl, rfl⟩
    | literal literal _ => exact absurd literal.opens single
    | single found _ later =>
        cases here.symm.trans found
        exact .inr ⟨_, rfl, later⟩
  · rintro (⟨rfl, rfl⟩ | ⟨rest, rfl, later⟩)
    · exact .done
    · exact .single here single later

end Search

/-- Whether a result is the offset of the closing bracket behind balanced tokens, or nothing if
there is no such bracket. -/
def Finds (source : Text) (bracket : Bracket) (depth offset : Nat) (found : Option Nat) : Prop :=
  ∀ stop, found = some stop ↔ source.encode[stop]? = some bracket.closing.toUInt8 ∧
    ∃ singles, Tokens source offset singles stop ∧ Balanced bracket depth singles

section Finds

variable {found : Option Nat}

theorem Finds.literal (h : Finds source bracket depth next found)
    (literal : Literal source offset next) : Finds source bracket depth offset found := by
  intro stop
  rw [h stop]
  refine and_congr_right fun closing => exists_congr fun singles => and_congr_left fun _ => ?_
  refine (tokens_of_literal literal ?_).symm
  rintro rfl
  exact not_opensLiteral_of_closing closing literal.opens

theorem finds_none_of_unclosed (opens : OpensLiteral source offset)
    (never : ∀ next, ¬ Literal source offset next) : Finds source bracket depth offset none := by
  intro stop
  refine iff_of_false nofun ?_
  rintro ⟨closing, singles, tokens, -⟩
  cases tokens with
  | done => exact not_opensLiteral_of_closing closing opens
  | literal literal _ => exact never _ literal
  | single _ single _ => exact single opens

theorem finds_none_of_end (outside : source.encode.length ≤ offset) :
    Finds source bracket depth offset none := by
  intro stop
  refine iff_of_false nofun ?_
  rintro ⟨closing, singles, tokens, -⟩
  have inside := lt_length_of_getElem? closing
  have ordered := tokens.le
  omega

theorem finds_of_outermost (here : source.encode[offset]? = some bracket.closing.toUInt8) :
    Finds source bracket 0 offset (some offset) := by
  have single : ¬ OpensLiteral source offset := not_opensLiteral_of_closing here
  intro stop
  constructor
  · rintro ⟨⟩
    exact ⟨here, [], .done, balanced_nil.mpr rfl⟩
  · rintro ⟨-, singles, tokens, balanced⟩
    rcases (tokens_of_single here single).mp tokens with ⟨-, rfl⟩ | ⟨rest, rfl, -⟩
    · rfl
    · exact absurd balanced not_balanced_closing

/-- Behind a byte that is no literal the search goes on, at the depth that the byte leads to. -/
theorem Finds.single {after : Nat} (h : Finds source bracket after (offset + 1) found)
    (here : source.encode[offset]? = some b) (single : ¬ OpensLiteral source offset)
    (goesOn : b = bracket.closing.toUInt8 → depth ≠ 0)
    (step : ∀ singles, Balanced bracket depth (b :: singles) ↔ Balanced bracket after singles) :
    Finds source bracket depth offset found := by
  intro stop
  rw [h stop]
  refine and_congr_right fun closing => ?_
  constructor
  · rintro ⟨rest, tokens, balanced⟩
    exact ⟨b :: rest, .single here single tokens, (step rest).mpr balanced⟩
  · rintro ⟨singles, tokens, balanced⟩
    rcases (tokens_of_single here single).mp tokens with ⟨rfl, rfl⟩ | ⟨rest, rfl, later⟩
    · cases here.symm.trans closing
      exact absurd (balanced_nil.mp balanced) (goesOn rfl)
    · exact ⟨rest, later, (step rest).mp balanced⟩

/-- The search finds the closing bracket behind balanced tokens, and fails only where there is
none. -/
theorem closingFrom_finds (source : Text) (bracket : Bracket) (depth offset : Nat) :
    ∃ found, closingFrom source bracket depth offset = .ok found ∧
      Finds source bracket depth offset found := by
  by_cases inside : offset < source.encode.length
  · have here : source.encode[offset]? = some source.encode[offset] := List.getElem?_eq_getElem inside
    generalize source.encode[offset] = b at here
    by_cases opens : OpensLiteral source offset
    · by_cases ends : ∃ next, Literal source offset next
      · obtain ⟨next, literal⟩ := ends
        have forward := literal.lt
        obtain ⟨found, searched, finds⟩ := closingFrom_finds source bracket depth next
        exact ⟨found, (closingFrom_of_literal literal).trans searched, finds.literal literal⟩
      · have never := not_exists.mp ends
        exact ⟨none, closingFrom_of_unclosed opens never, finds_none_of_unclosed opens never⟩
    · have step : closingFrom source bracket depth offset = _ := closingFrom_of_single here opens
      by_cases opening : b = bracket.opening.toUInt8
      · obtain ⟨found, searched, finds⟩ := closingFrom_finds source bracket (depth + 1) (offset + 1)
        rw [if_pos opening] at step
        subst opening
        exact ⟨found, step.trans searched, finds.single here opens
          (fun closing => absurd closing (opening_ne_closing bracket)) fun _ => balanced_opening⟩
      · rw [if_neg opening] at step
        by_cases closing : b = bracket.closing.toUInt8
        · rw [if_pos closing] at step
          subst closing
          cases depth with
          | zero => exact ⟨some offset, step, finds_of_outermost here⟩
          | succ depth =>
              obtain ⟨found, searched, finds⟩ := closingFrom_finds source bracket depth (offset + 1)
              exact ⟨found, step.trans searched, finds.single here opens
                (fun _ => Nat.succ_ne_zero depth) fun _ => balanced_closing⟩
        · rw [if_neg closing] at step
          obtain ⟨found, searched, finds⟩ := closingFrom_finds source bracket depth (offset + 1)
          exact ⟨found, step.trans searched, finds.single here opens
            (fun same => absurd same closing) fun _ => balanced_other opening closing⟩
  · refine ⟨none, ?_, finds_none_of_end (Nat.le_of_not_lt inside)⟩
    rw [closingFrom, if_neg inside]
termination_by source.encode.length - offset

/-- A bracket whose inner text has no end is closed nowhere. -/
theorem not_closes_of_enclosed? {t : Text} (h : source.GoesOn offset (bracket.opening :: t))
    (unclosed : enclosed? bracket t = none) (stop : Nat) :
    ¬ Closes source bracket (offset + 1) stop := by
  obtain ⟨found, searched, finds⟩ := closingFrom_finds source bracket 0 (offset + 1)
  have same := closing_eq h
  rw [closing, searched, unclosed] at same
  cases same
  intro closes
  cases (finds stop).mpr closes

/-- The bracket that closes another is found exactly where one does, there is at most one, and
nothing is found only where there is none. By characters and by bytes the same one is found; right
behind an opening bracket no text in front matters. -/
theorem closeFrom?_iff_closes (bracket : Bracket) (before rest : Text) :
    ∃ found : Option Nat,
      (closeFrom? bracket 0 (leadAfter before) rest).map (fun r => before.byteSize + r.1.byteSize) =
        found ∧
      (∀ front, before = front ++ [bracket.opening] →
        (enclosed? bracket rest).map (fun r => before.byteSize + r.1.byteSize) = found) ∧
      closing (before ++ rest) bracket before.byteSize = .ok found ∧
      (∀ stop, found = some stop ↔ Closes (before ++ rest) bracket before.byteSize stop) ∧
      (found = none ↔ ∀ stop, ¬ Closes (before ++ rest) bracket before.byteSize stop) ∧
      ∀ stop next, Closes (before ++ rest) bracket before.byteSize stop →
        Closes (before ++ rest) bracket before.byteSize next → stop = next := by
  obtain ⟨found, searched, finds⟩ := closingFrom_finds (before ++ rest) bracket 0 before.byteSize
  have same := Except.ok.inj ((closingFrom_eq before rest).symm.trans searched)
  refine ⟨found, same, ?_, searched, finds, ?_, ?_⟩
  · rintro front rfl
    rw [← same, leadAfter_of_not_word front (by cases bracket <;> decide), enclosed?]
  · rw [Option.eq_none_iff_forall_ne_some]
    exact forall_congr' fun stop => not_congr (finds stop)
  · intro stop next h h'
    exact Option.some.inj (((finds stop).mpr h).symm.trans ((finds next).mpr h'))

example : (enclosed? .paren "f('a', '\\'', r#\")\"#, \"\\\")\"), r) + 1".toList).map (·.2) =
    some " + 1".toList := by
  cbv

end Finds

end Stencil.Offsets
