/-! Splitting a text at a separator and joining it again. -/
namespace AggregateSchema.Text

/-- The pieces between the separators; a text without one is a single piece. -/
def split (sep : Char) : List Char → List (List Char)
  | [] => [[]]
  | c :: cs =>
    if c = sep then [] :: split sep cs
    else match split sep cs with
      | piece :: pieces => (c :: piece) :: pieces
      | [] => [[c]]

/-- The pieces, each with a separator in front. -/
def joinAfter (sep : Char) (pieces : List (List Char)) : List Char :=
  pieces.flatMap (sep :: ·)

theorem split_ne_nil (sep : Char) (cs : List Char) : split sep cs ≠ [] := by
  cases cs with
  | nil => simp [split]
  | cons c cs =>
    rw [split]
    split
    · simp
    · split <;> simp

/-- Splitting loses nothing. -/
theorem joinAfter_split (sep : Char) (cs : List Char) :
    joinAfter sep (split sep cs) = sep :: cs := by
  induction cs with
  | nil => simp [split, joinAfter]
  | cons c cs ih =>
    rw [split]
    split
    · rename_i h
      subst h
      simpa [joinAfter] using ih
    · split
      · rename_i piece pieces h
        rw [h] at ih
        simp [joinAfter] at ih ⊢
        exact ih
      · rename_i h
        exact absurd h (split_ne_nil sep cs)

/-- A separator ends the pieces before it and begins those after it. -/
theorem split_append_separator (sep : Char) (cs rest : List Char) :
    split sep (cs ++ sep :: rest) = split sep cs ++ split sep rest := by
  induction cs with
  | nil => simp [split]
  | cons c cs ih =>
    rw [List.cons_append, split, split, ih]
    split
    · rfl
    · cases hs : split sep cs with
      | nil => exact absurd hs (split_ne_nil sep cs)
      | cons piece pieces => rfl

theorem split_of_not_mem {sep : Char} {cs : List Char} (h : sep ∉ cs) : split sep cs = [cs] := by
  induction cs with
  | nil => rfl
  | cons c cs ih =>
    rw [List.mem_cons, not_or] at h
    rw [split, if_neg (Ne.symm h.1), ih h.2]

theorem split_append {sep : Char} {cs : List Char} (h : sep ∉ cs) (rest : List Char) :
    split sep (cs ++ sep :: rest) = cs :: split sep rest := by
  rw [split_append_separator, split_of_not_mem h, List.singleton_append]

/-- Pieces without a separator are found again. -/
theorem split_joinAfter {sep : Char} {piece : List Char} {pieces : List (List Char)}
    (h : ∀ p ∈ piece :: pieces, sep ∉ p) :
    split sep (piece ++ joinAfter sep pieces) = piece :: pieces := by
  induction pieces generalizing piece with
  | nil => simpa [joinAfter] using split_of_not_mem (h piece List.mem_cons_self)
  | cons next pieces ih =>
    obtain ⟨hpiece, hrest⟩ := List.forall_mem_cons.1 h
    rw [joinAfter, List.flatMap_cons, List.cons_append, split_append hpiece]
    exact congrArg (piece :: ·) (ih hrest)

end AggregateSchema.Text
