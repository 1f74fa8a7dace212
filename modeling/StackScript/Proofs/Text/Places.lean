import Mathlib
import StackScript.Text.SourceFile

/-!
# Places of a text

A position is the place behind a front part of the text exactly if its line, column and offset are
counted from that part.  Reading a text character by character keeps this count.
-/

namespace StackScript

/-! ## Positions -/

namespace Position

/-- The place behind some characters: its line is one more than their line feeds, its column one more
than the characters behind the last of these, and its offset the number of their bytes. -/
def reached (before : List Char) : Position :=
  ⟨1 + before.count '\n', 1 + (before.reverse.takeWhile (· ≠ '\n')).length, (before.map Char.utf8Size).sum⟩

theorem sum_utf8Size (cs : List Char) : (cs.map Char.utf8Size).sum = (String.ofList cs).utf8ByteSize := by
  induction cs with
  | nil => rfl
  | cons c cs ih => simp [ih]

theorem step_reached (before : List Char) (c : Char) : (reached before).step c = reached (before ++ [c]) := by
  by_cases hc : c = '\n'
  · subst hc
    have hsize : Char.utf8Size '\n' = 1 := rfl
    simp [reached, step, hsize, Nat.add_assoc]
  · simp [reached, step, hc, Nat.add_comm]

theorem reached_after (before cs : List Char) : (reached before).after cs = reached (before ++ cs) := by
  induction cs generalizing before with
  | nil => simp
  | cons c cs ih => rw [after_cons, step_reached, ih, List.append_assoc, List.singleton_append]

/-- **Reading a text counts its lines, columns and bytes.** -/
theorem after_first (cs : List Char) : first.after cs = reached cs :=
  reached_after [] cs

theorem offset_reached_append (before cs : List Char) :
    (reached (before ++ cs)).offset = (reached before).offset + (cs.map Char.utf8Size).sum := by
  simp [reached]

/-- A place of a text: the one behind a front part of it. -/
def LiesIn (text : List Char) (p : Position) : Prop :=
  ∃ before after, text = before ++ after ∧ p = reached before

theorem liesIn_reached {text before after : List Char} (h : text = before ++ after) : (reached before).LiesIn text :=
  ⟨before, after, h, rfl⟩

namespace LiesIn

variable {text : List Char} {p : Position}

theorem line_pos (h : p.LiesIn text) : 0 < p.line := by
  obtain ⟨before, after, -, rfl⟩ := h
  exact Nat.lt_of_lt_of_le Nat.one_pos (Nat.le_add_right _ _)

theorem line_le (h : p.LiesIn text) : p.line ≤ 1 + text.count '\n' := by
  obtain ⟨before, after, rfl, rfl⟩ := h
  rw [List.count_append]
  exact Nat.add_le_add_left (Nat.le_add_right _ _) 1

/-- A place of a text is not behind its end. -/
theorem offset_le (h : p.LiesIn text) : p.offset ≤ (reached text).offset := by
  obtain ⟨before, after, rfl, rfl⟩ := h
  rw [offset_reached_append]
  exact Nat.le_add_right _ _

end LiesIn

end Position

/-! ## Lines -/

theorem SourceFile.length_splitLines (cs : List Char) : (splitLines cs).length = 1 + cs.count '\n' := by
  induction cs with
  | nil => rfl
  | cons c cs ih =>
    rw [splitLines]
    split
    next hc => rw [List.length_cons, ih, hc, List.count_cons_self, Nat.add_assoc]
    next hc =>
      rw [List.count_cons_of_ne (Ne.symm (Ne.symm hc))]
      cases hlines : splitLines cs with
      | nil => simp [hlines] at ih; omega
      | cons l ls => rw [← ih, hlines, List.length_cons, List.length_cons]

/-- The line of a place of a text is one of its lines. -/
theorem Position.LiesIn.exists_line {f : SourceFile} {p : Position} (h : p.LiesIn f.content.toList) :
    ∃ line, f.line? p.line = some line := by
  have hpos := h.line_pos
  have hle := h.line_le
  rw [← SourceFile.length_splitLines] at hle
  rw [SourceFile.line?, if_neg (Nat.ne_of_gt hpos), List.getElem?_eq_getElem (by omega)]
  exact ⟨_, rfl⟩

/-! ## Spans -/

/-- A stretch of a text. -/
structure Span.LiesIn (text : List Char) (s : Span) : Prop where
  start : s.start.LiesIn text
  stop : s.stop.LiesIn text
  ordered : s.start.offset ≤ s.stop.offset

namespace Span.LiesIn

variable {text : List Char} {a b s : Span}

/-- The stretch of some characters in a text. -/
theorem of_append {before inside after : List Char} (h : text = before ++ inside ++ after) :
    (⟨.reached before, .reached (before ++ inside)⟩ : Span).LiesIn text where
  start := Position.liesIn_reached (h.trans (List.append_assoc _ _ _))
  stop := Position.liesIn_reached h
  ordered := by
    rw [Position.offset_reached_append]
    exact Nat.le_add_right _ _

/-- A stretch of a text is somewhere. -/
theorem isNowhere (h : s.LiesIn text) : s.isNowhere = false :=
  beq_false_of_ne (Nat.ne_of_gt h.start.line_pos)

/-- What covers two stretches of a text is one of them. -/
theorem merge (ha : a.LiesIn text) (hb : b.LiesIn text) : (a.merge b).LiesIn text := by
  simp only [Span.merge, ha.isNowhere, hb.isNowhere, Bool.false_eq_true, if_false]
  refine ⟨?_, ?_, ?_⟩ <;> dsimp only
  · split
    · exact hb.start
    · exact ha.start
  · split
    · exact hb.stop
    · exact ha.stop
  · have hao := ha.ordered
    have hbo := hb.ordered
    split <;> split <;> omega

end Span.LiesIn

end StackScript
