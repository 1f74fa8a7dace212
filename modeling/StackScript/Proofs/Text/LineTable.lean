import Mathlib
import StackScript.Proofs.Text.Places
import StackScript.Token.Lexer

/-!
# The table of lines against the reader

A source file looks the place of a byte offset up in its table of line starts, and a lexer counts it
while it reads.  Both give the same line and the same offset.  The table counts the column in bytes and
the lexer in characters, so the two places are one exactly if no wide character stands on the line
before the offset.
-/

namespace StackScript

/-- What stands on the line of the place behind some characters, read backwards. -/
def Position.lineBehind (before : List Char) : List Char :=
  before.reverse.takeWhile (· ≠ '\n')

theorem Position.reached_eq (before : List Char) :
    reached before = ⟨1 + before.count '\n', 1 + (lineBehind before).length, String.utf8Len before⟩ := by
  rw [reached, sum_utf8Size, String.utf8ByteSize_ofList]
  rfl

/-- Characters take as many bytes as they are exactly if none of them is wide. -/
theorem utf8Len_eq_length_iff (cs : List Char) : String.utf8Len cs = cs.length ↔ ∀ c ∈ cs, c.utf8Size = 1 := by
  suffices h : cs.length ≤ String.utf8Len cs ∧ (String.utf8Len cs = cs.length ↔ ∀ c ∈ cs, c.utf8Size = 1) from h.2
  induction cs with
  | nil => simp
  | cons c cs ih =>
    have := c.utf8Size_pos
    rw [List.forall_mem_cons, ← ih.2, String.utf8Len_cons, List.length_cons]
    omega

namespace SourceFile

variable {base start : Nat} {before after : List Char}

theorem startsFrom_append (base : Nat) (before after : List Char) : startsFrom base (before ++ after) =
      startsFrom base before ++ startsFrom (base + String.utf8Len before) after := by
  induction before generalizing base with
  | nil => rfl
  | cons c cs ih =>
    rw [String.utf8Len_cons, Nat.add_comm _ c.utf8Size, ← Nat.add_assoc]
    simp only [List.cons_append, startsFrom, ih]
    split <;> rfl

theorem length_startsFrom (base : Nat) (cs : List Char) : (startsFrom base cs).length = cs.count '\n' := by
  induction cs generalizing base with
  | nil => rfl
  | cons c cs ih => by_cases hc : c = '\n' <;> simp [startsFrom, hc, ih]

/-- A line starts behind its line feed, and not behind the end of the text. -/
theorem mem_startsFrom (h : start ∈ startsFrom base before) : base < start ∧ start ≤ base + String.utf8Len before := by
  induction before generalizing base with
  | nil => cases h
  | cons c cs ih =>
    have := c.utf8Size_pos
    rw [startsFrom] at h
    rw [String.utf8Len_cons]
    have hstart : start = base + c.utf8Size ∨ start ∈ startsFrom (base + c.utf8Size) cs := by
      split at h
      · exact List.mem_cons.1 h
      · exact .inr h
    rcases hstart with rfl | hstart
    · omega
    · have := ih hstart
      omega

/-- The last line that some characters open starts as many bytes before their end as stand on it. -/
theorem getLastD_startsFrom (base : Nat) (before : List Char) :
    (startsFrom base before).getLastD base + String.utf8Len (Position.lineBehind before) =
      base + String.utf8Len before := by
  induction before using List.reverseRecOn with
  | nil => rfl
  | append_singleton cs c ih =>
    rw [startsFrom_append, startsFrom, startsFrom, String.utf8Len_append, String.utf8Len_cons, String.utf8Len_nil]
    by_cases hc : c = '\n'
    · simp [hc, Position.lineBehind, Nat.add_assoc]
    · rw [Position.lineBehind] at ih ⊢
      rw [if_neg hc, List.append_nil, List.reverse_append, List.reverse_singleton, List.singleton_append,
        List.takeWhile_cons_of_pos (by simpa using hc), String.utf8Len_cons]
      omega

/-- The lines that start up to a boundary between characters are those that the text before it opens. -/
theorem started_boundary {f : SourceFile} (h : f.content.toList = before ++ after) :
    f.lineStarts.takeWhile (· ≤ String.utf8Len before) = 0 :: startsFrom 0 before := by
  rw [lineStarts, h, startsFrom_append, ← List.cons_append, List.takeWhile_append_of_pos]
  · rw [List.takeWhile_eq_nil_iff.2, List.append_nil]
    intro hpos hstarted
    have := mem_startsFrom (List.get_mem _ ⟨0, hpos⟩)
    rw [decide_eq_true_eq] at hstarted
    omega
  · intro start hstart
    rw [decide_eq_true_eq]
    rcases List.mem_cons.1 hstart with rfl | hstart
    · exact Nat.zero_le _
    · have := mem_startsFrom hstart
      omega

theorem positionAt_utf8Len {f : SourceFile} (h : f.content.toList = before ++ after) :
    f.positionAt (String.utf8Len before) =
      ⟨1 + before.count '\n', 1 + String.utf8Len (Position.lineBehind before), String.utf8Len before⟩ := by
  have hlast := getLastD_startsFrom 0 before
  rw [positionAt, started_boundary h, List.length_cons, length_startsFrom, List.getLastD_cons, Position.mk.injEq]
  omega

end SourceFile

/-- A lexer that advances over the front of a text is at the place behind it. -/
theorem Lexer.position_advance {source : String} {before after : List Char} (h : source.toList = before ++ after) :
    ((Lexer.read · 1)^[before.length] (.ofText source)).position = .reached before := by
  have hread (l : Lexer) (cs : List Char) (hl : l.rest = cs ++ after) :
      ((Lexer.read · 1)^[cs.length] l).position = l.position.after cs := by
    induction cs generalizing l with
    | nil => rfl
    | cons c cs ih =>
      rw [List.length_cons, Function.iterate_succ_apply, ih (l.read 1) (by simp [read, hl]), Position.after_cons]
      simp [read, hl]
  rw [hread _ before h]
  exact Position.after_first before

/-- **The table of lines and the lexer give every boundary the same line and offset.**  The column is counted
in bytes by the table and in characters by the lexer, so the two places are the same exactly if all characters
on the line before the boundary have one byte. -/
theorem SourceFile.positionAt_boundary (f : SourceFile) (b : f.content.Pos) :
    let before := (f.content.sliceTo b).copy.toList
    let reported := ((Lexer.read · 1)^[before.length] (.ofText f.content)).position
    let found := f.positionAt b.offset.byteIdx
    reported.offset = b.offset.byteIdx ∧ found.offset = b.offset.byteIdx ∧ found.line = reported.line ∧
      reported.column = 1 + (Position.lineBehind before).length ∧
      found.column = 1 + String.utf8Len (Position.lineBehind before) ∧
      (found = reported ↔ ∀ c ∈ Position.lineBehind before, c.utf8Size = 1) := by
  intro before reported found
  have hsplit : f.content.toList = before ++ (f.content.sliceFrom b).copy.toList := by
    rw [← String.toList_append, ← b.splits.eq_append]
  have hoffset : b.offset.byteIdx = String.utf8Len before := by
    rw [String.utf8Len_toList, b.splits.offset_eq_rawEndPos, String.byteIdx_rawEndPos]
  have hreported : reported = _ := (Lexer.position_advance hsplit).trans (Position.reached_eq before)
  have hfound : found = _ := (congrArg f.positionAt hoffset).trans (positionAt_utf8Len hsplit)
  rw [hreported, hfound, hoffset, ← utf8Len_eq_length_iff]
  simp

/-- On a line with a wide character the table is ahead of the lexer. -/
theorem SourceFile.positionAt_wide : (⟨"", "é"⟩ : SourceFile).positionAt 2 = ⟨1, 3, 2⟩ ∧
      ((Lexer.read · 1)^[1] (.ofText "é")).position = ⟨1, 2, 2⟩ := by
  decide

end StackScript
