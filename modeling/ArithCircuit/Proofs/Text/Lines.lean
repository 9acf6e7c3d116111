import ArithCircuit.Proofs.Text.Separation

/-!
# The lines of a text

A text that is written line by line has these lines again, up to the first one that is not on one line itself.
-/

namespace ArithCircuit.Text

/-- The text of a line that was read back to front. A carriage return at its end is no part of it. -/
def endLine : List Char → String
  | '\r' :: line => .ofList line.reverse
  | line => .ofList line.reverse

/-- The lines of a text, the first of them after what was read of it back to front. -/
def linesAfter (line : List Char) : List Char → List String
  | [] => if line = [] then [] else [.ofList line.reverse]
  | c :: rest => if c = '\n' then endLine line :: linesAfter [] rest else linesAfter (c :: line) rest

/-- The lines of a text. A line feed ends a line, with or without a carriage return before it; the last line may go
without an end. -/
def lines (text : String) : List String := linesAfter [] text.toList

/-- No end of a line is in the text, nor a part of one. -/
def OneLine (s : String) : Prop := '\n' ∉ s.toList ∧ '\r' ∉ s.toList

instance (s : String) : Decidable (OneLine s) := inferInstanceAs (Decidable (_ ∧ _))

theorem oneLine_append {s t : String} : OneLine (s ++ t) ↔ OneLine s ∧ OneLine t := by
  simp only [OneLine, String.toList_append, List.mem_append, not_or]
  tauto

theorem OneLine.join {texts : List String} (h : ∀ s ∈ texts, OneLine s) : OneLine (String.join texts) := by
  induction texts with
  | nil => decide
  | cons s texts ih =>
      obtain ⟨first, rest⟩ := List.forall_mem_cons.mp h
      exact String.join_cons ▸ oneLine_append.mpr ⟨first, ih rest⟩

theorem oneLine_toString (n : Nat) : OneLine (toString n) := by
  constructor
  · exact fun h => absurd (isDigit_of_mem_toString h) (by decide)
  · exact fun h => absurd (isDigit_of_mem_toString h) (by decide)

theorem endLine_reverse {line : List Char} (h : '\r' ∉ line) : endLine line.reverse = .ofList line := by
  unfold endLine
  split
  · rename_i rest split
    exact absurd (List.mem_reverse.mp (split ▸ List.mem_cons_self)) h
  · rw [List.reverse_reverse]

theorem linesAfter_append {line : List Char} (h : '\n' ∉ line) (before rest : List Char) :
    linesAfter before (line ++ '\n' :: rest) = endLine (line.reverse ++ before) :: linesAfter [] rest := by
  induction line generalizing before with
  | nil => simp [linesAfter]
  | cons c line ih =>
      obtain ⟨first, later⟩ := not_or.mp (mt List.mem_cons.mpr h)
      rw [List.cons_append, linesAfter, if_neg (Ne.symm first), ih later]
      simp

theorem lines_append {s : String} (h : OneLine s) (rest : String) : lines (s ++ "\n" ++ rest) = s :: lines rest := by
  have text : (s ++ "\n" ++ rest).toList = s.toList ++ '\n' :: rest.toList := by simp
  rw [lines, text, linesAfter_append h.1, List.append_nil, endLine_reverse h.2, String.ofList_toList, lines]

/-- What is written line by line is read line by line. -/
theorem lines_join {own : List String} (h : ∀ s ∈ own, OneLine s) (rest : List String) :
    lines (String.join ((own ++ rest).map (· ++ "\n"))) = own ++ lines (String.join (rest.map (· ++ "\n"))) := by
  induction own with
  | nil => rfl
  | cons s own ih =>
      obtain ⟨first, later⟩ := List.forall_mem_cons.mp h
      rw [List.cons_append, List.map_cons, String.join_cons, lines_append first, ih later, List.cons_append]

end ArithCircuit.Text
