namespace Pearl.Text

/-- The pieces of a text between the occurrences of a separator, empty ones included. -/
def splitOn (sep : Char) : List Char → List (List Char)
  | [] => [[]]
  | c :: cs =>
    if c = sep then [] :: splitOn sep cs
    else match splitOn sep cs with
      | [] => [[c]]
      | piece :: pieces => (c :: piece) :: pieces

theorem not_mem_of_mem_splitOn {sep : Char} {cs piece : List Char} (h : piece ∈ splitOn sep cs) :
    sep ∉ piece := by
  induction cs generalizing piece with
  | nil =>
    have he : piece = [] := by simpa [splitOn] using h
    simp [he]
  | cons c cs ih =>
    rw [splitOn] at h
    split at h
    · rcases List.mem_cons.mp h with rfl | h
      · simp
      · exact ih h
    · rename_i hc
      have hne : sep ≠ c := fun he => hc he.symm
      split at h
      · have he : piece = [c] := by simpa using h
        simp [he, hne]
      · rename_i first pieces hs
        rcases List.mem_cons.mp h with rfl | h
        · have hf := ih (hs ▸ List.mem_cons_self (a := first) (l := pieces))
          simp [hne, hf]
        · exact ih (hs ▸ List.mem_cons_of_mem first h)

/-- The text before the first occurrence of a separator and the text after it, which is absent
if the separator is. -/
def splitFirst (sep : Char) (cs : List Char) : List Char × Option (List Char) :=
  match cs.dropWhile (· ≠ sep) with
  | [] => (cs.takeWhile (· ≠ sep), none)
  | _ :: rest => (cs.takeWhile (· ≠ sep), some rest)

/-- What follows `head` in a text that starts with it. -/
def dropHead? : List Char → List Char → Option (List Char)
  | [], cs => some cs
  | _ :: _, [] => none
  | h :: hs, c :: cs => if h = c then dropHead? hs cs else none

end Pearl.Text
