namespace Pearl.Entries

/-! Values by name, in the order in which the names came. Each name is there at most once. -/

variable {α : Type}

/-- Gives a name its value, in the place it has already or at the end. -/
def assign (name : String) (value : α) : List (String × α) → List (String × α)
  | [] => [(name, value)]
  | (n, v) :: rest =>
    if n = name then (n, value) :: rest else (n, v) :: assign name value rest

/-- A name has the value that it was given last, and other names keep theirs. -/
theorem lookup_assign (name : String) (value : α) (entries : List (String × α)) (other : String) :
    (assign name value entries).lookup other =
      if other = name then some value else entries.lookup other := by
  induction entries with
  | nil =>
    by_cases h : other = name
    · simp [assign, h]
    · have hb : (other == name) = false := by simpa using h
      simp [assign, List.lookup_cons, h, hb]
  | cons e rest ih =>
    obtain ⟨n, v⟩ := e
    by_cases hn : n = name
    · subst hn
      by_cases h : other = n
      · simp [assign, h]
      · have hb : (other == n) = false := by simpa using h
        simp [assign, List.lookup_cons, h, hb]
    · by_cases h : other = n
      · subst h
        simp [assign, hn]
      · have hb : (other == n) = false := by simpa using h
        simp [assign, hn, List.lookup_cons, hb, ih]

/-- A name that is there keeps its place; a new one comes last. -/
theorem names_assign (name : String) (value : α) (entries : List (String × α)) :
    (assign name value entries).map (·.1) =
      if name ∈ entries.map (·.1) then entries.map (·.1) else entries.map (·.1) ++ [name] := by
  induction entries with
  | nil => simp [assign]
  | cons e rest ih =>
    obtain ⟨n, v⟩ := e
    by_cases hn : n = name
    · simp [assign, hn]
    · have hne : name ≠ n := fun h => hn h.symm
      simp only [assign, if_neg hn, List.map_cons, List.mem_cons, hne, false_or, ih]
      split
      · rfl
      · rfl

/-- A name that is taken out has no value, and other names keep theirs. -/
theorem lookup_filter_ne (name : String) (entries : List (String × α)) (other : String) :
    (entries.filter (·.1 ≠ name)).lookup other =
      if other = name then none else entries.lookup other := by
  induction entries with
  | nil => simp
  | cons e rest ih =>
    obtain ⟨n, v⟩ := e
    by_cases hn : n = name
    · subst hn
      rw [List.filter_cons_of_neg (by simp), ih]
      split
      · rfl
      · rename_i ho
        rw [List.lookup_cons, beq_eq_false_iff_ne.mpr ho]
    · rw [List.filter_cons_of_pos (by simp [hn]), List.lookup_cons, ih, List.lookup_cons]
      by_cases ho : other = n
      · subst ho
        simp [hn]
      · rw [beq_eq_false_iff_ne.mpr ho]

theorem mem_of_lookup {entries : List (String × α)} {name : String} {value : α}
    (h : entries.lookup name = some value) : (name, value) ∈ entries := by
  obtain ⟨front, back, hsplit, -⟩ := List.lookup_eq_some_iff.mp h
  rw [hsplit]
  simp

/-- Where each name is there once, it has the value that it stands with. -/
theorem lookup_of_mem {entries : List (String × α)} {name : String} {value : α}
    (hdistinct : (entries.map (·.1)).Nodup) (h : (name, value) ∈ entries) :
    entries.lookup name = some value := by
  obtain ⟨front, back, hsplit⟩ := List.append_of_mem h
  refine List.lookup_eq_some_iff.mpr ⟨front, back, hsplit, ?_⟩
  intro entry hentry
  rw [hsplit, List.map_append] at hdistinct
  have hne := (List.nodup_append.mp hdistinct).2.2 entry.1 (List.mem_map_of_mem hentry) name
    (by simp)
  simpa using hne.symm

end Pearl.Entries
