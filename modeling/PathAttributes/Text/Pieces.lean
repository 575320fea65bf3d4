namespace PathAttributes.Text

/-- The pieces of a text between the places where a separator stands; one more than there are
separators. -/
def pieces (separator : Char) : List Char → List (List Char)
  | [] => [[]]
  | c :: cs =>
    match pieces separator cs with
    | [] => [[]]
    | p :: ps => if c = separator then [] :: p :: ps else (c :: p) :: ps

theorem pieces_ne_nil (separator : Char) (cs : List Char) : pieces separator cs ≠ [] := by
  cases cs with
  | nil => simp [pieces]
  | cons c cs => rw [pieces]; split <;> (try split) <;> simp

theorem pieces_cons_separator (separator : Char) (cs : List Char) :
    pieces separator (separator :: cs) = [] :: pieces separator cs := by
  rw [pieces]
  split
  · exact absurd ‹_› (pieces_ne_nil separator cs)
  · simp [*]

/-- What precedes the first separator is the first piece. -/
theorem pieces_append {separator : Char} {p : List Char} (h : separator ∉ p) (cs : List Char) :
    pieces separator (p ++ separator :: cs) = p :: pieces separator cs := by
  induction p with
  | nil => exact pieces_cons_separator separator cs
  | cons c p ih =>
    simp only [List.mem_cons, not_or] at h
    rw [List.cons_append, pieces, ih h.2]
    simp [Ne.symm h.1]

/-- Text without a separator is one piece. -/
theorem pieces_of_not_mem {separator : Char} {p : List Char} (h : separator ∉ p) :
    pieces separator p = [p] := by
  induction p with
  | nil => rfl
  | cons c p ih =>
    simp only [List.mem_cons, not_or] at h
    rw [pieces, ih h.2]
    simp [Ne.symm h.1]

end PathAttributes.Text
