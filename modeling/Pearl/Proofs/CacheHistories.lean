import Pearl.DocumentStore
import Pearl.Proofs.CacheTransparency

namespace Pearl

/-! ### What a cache holds after an operation -/

namespace FileTree

/-- The file at a path has been modified at the time an entry tells, and has the text it tells. -/
def Confirms (files : FileTree) (e : Path × CachedFile) : Prop :=
  ∃ status, files.stat e.1 = .ok status ∧ status.modified = e.2.modified ∧
    files.readText e.1 = .ok e.2.text

end FileTree

namespace IncludeCache

variable {c : IncludeCache} {files : FileTree} {p : Path} {e : Path × CachedFile}

theorem mem_of_get? {f : CachedFile} (h : c.get? p = some f) : (p, f) ∈ c.files := by
  obtain ⟨front, back, hsplit, -⟩ := List.lookup_eq_some_iff.mp h
  rw [hsplit]
  simp

theorem mem_of_mem_invalidate (h : e ∈ (c.invalidate p).files) : e ∈ c.files :=
  (List.mem_filter.mp h).1

theorem mem_readAnew {status : FileStatus} (hstat : files.stat p = .ok status)
    (h : e ∈ (c.readAnew files p status.modified).2.files) : e ∈ c.files ∨ files.Confirms e := by
  unfold readAnew at h
  cases htext : files.readText p with
  | error fault =>
    rw [htext] at h
    exact Or.inl h
  | ok text =>
    rw [htext] at h
    rcases List.mem_cons.mp h with rfl | h
    · exact Or.inr ⟨status, hstat, rfl, htext⟩
    · exact Or.inl (mem_of_mem_invalidate h)

/-- What is held after a file was read was held before, or is what the file tells now. -/
theorem mem_read (h : e ∈ (c.read files p).2.files) : e ∈ c.files ∨ files.Confirms e := by
  unfold read at h
  cases hstat : files.stat p with
  | error fault =>
    simp only [hstat] at h
    cases fault with
    | notFound => exact Or.inl (mem_of_mem_invalidate h)
    | _ => exact Or.inl h
  | ok status =>
    simp only [hstat] at h
    cases hf : c.get? p with
    | none =>
      rw [hf] at h
      exact mem_readAnew hstat h
    | some f =>
      simp only [hf] at h
      split at h
      · exact Or.inl h
      · exact mem_readAnew hstat h

/-- A file that is gone is forgotten. -/
theorem contains_read_of_notFound (c : IncludeCache) (h : files.stat p = .error .notFound) :
    (c.read files p).2.contains p = false := by
  have hread : (c.read files p).2 = c.invalidate p := by simp only [read, h]
  rw [hread, contains, get?_invalidate_self]
  rfl

theorem counted_readAnew (c : IncludeCache) (files : FileTree) (p : Path) (modified : Int) :
    (c.readAnew files p modified).2.hits + (c.readAnew files p modified).2.misses =
      c.hits + c.misses + 1 := by
  unfold readAnew
  cases files.readText p with
  | error fault => exact (Nat.add_assoc c.hits c.misses 1).symm
  | ok text => exact (Nat.add_assoc c.hits c.misses 1).symm

/-- A reading is counted once if the file can be inspected, and else not at all. -/
theorem counted_read (c : IncludeCache) (files : FileTree) (p : Path) :
    (c.read files p).2.hits + (c.read files p).2.misses =
      c.hits + c.misses + if (files.stat p).isOk then 1 else 0 := by
  unfold read
  cases files.stat p with
  | error fault => cases fault <;> rfl
  | ok status =>
    cases c.get? p with
    | none => exact counted_readAnew c files p status.modified
    | some f =>
      dsimp only
      split
      · exact Nat.add_right_comm c.hits 1 c.misses
      · exact counted_readAnew c files p status.modified

end IncludeCache

theorem DocumentStore.cache_forget {α : Type} (s : DocumentStore α) (files : FileTree)
    (uri : String) :
    (s.forget files uri).1.cache = s.cache ∨
      ∃ p, (s.forget files uri).1.cache = s.cache.invalidate p := by
  unfold forget
  dsimp only
  split
  · split
    · exact Or.inr ⟨_, rfl⟩
    · exact Or.inl rfl
  · exact Or.inl rfl

/-! ### Histories of a cache -/

namespace CacheHistory

/-- What may happen to the texts that are held, and to the files themselves. -/
inductive Step where
  | read (p : Path)
  | invalidate (p : Path)
  | clear
  | forget (uri : String)
  | change (files : FileTree)

structure Workspace (α : Type) where
  files : FileTree
  documents : DocumentStore α

variable {α : Type}

namespace Workspace

def cache (w : Workspace α) : IncludeCache := w.documents.cache

def withCache (w : Workspace α) (c : IncludeCache) : Workspace α :=
  { w with documents := { w.documents with cache := c } }

def next (w : Workspace α) : Step → Workspace α
  | .read p => w.withCache (w.cache.read w.files p).2
  | .invalidate p => w.withCache (w.cache.invalidate p)
  | .clear => w.withCache w.cache.clear
  | .forget uri => { w with documents := (w.documents.forget w.files uri).1 }
  | .change files => { w with files }

def after (w : Workspace α) (steps : List Step) : Workspace α := steps.foldl next w

end Workspace

def Step.change? : Step → Option FileTree
  | .change files => some files
  | _ => none

/-- The file systems there are in the course of a history. -/
def trees (files : FileTree) (steps : List Step) : List FileTree :=
  files :: steps.filterMap Step.change?

/-- A file that has not been modified reads as before: two file systems that date a path alike
have the same to say about it. -/
def Dated (trees : List FileTree) : Prop :=
  ∀ t ∈ trees, ∀ t' ∈ trees, ∀ p status status', t.stat p = .ok status →
    t'.stat p = .ok status' → status.modified = status'.modified → t.readText p = t'.readText p

/-- The number of readings whose file could be inspected when it was asked for. -/
def inspections (files : FileTree) : List Step → Nat
  | [] => 0
  | .read p :: steps => (if (files.stat p).isOk then 1 else 0) + inspections files steps
  | .change files :: steps => inspections files steps
  | _ :: steps => inspections files steps

/-- What holds of a workspace in the course of a history: its file system is one of those seen so
far, each text that is held was confirmed by one of them, and readings have been counted. -/
structure Sound (seen : List FileTree) (count : Nat) (w : Workspace α) : Prop where
  current : w.files ∈ seen
  confirmed : ∀ e ∈ w.cache.files, ∃ t ∈ seen, t.Confirms e
  counted : w.cache.hits + w.cache.misses = count

variable {seen : List FileTree} {count : Nat} {w : Workspace α}

/-- A step that leaves the file system alone may forget texts and hold what a file tells now. -/
theorem Sound.of_mem (h : Sound seen count w) (w' : Workspace α) (hfiles : w'.files = w.files)
    (hmem : ∀ e ∈ w'.cache.files, e ∈ w.cache.files ∨ w.files.Confirms e) {n : Nat}
    (hcount : w'.cache.hits + w'.cache.misses = n) (later : List FileTree) :
    Sound (seen ++ later) n w' := by
  have hcurrent : w.files ∈ seen ++ later := List.mem_append_left later h.current
  refine ⟨hfiles ▸ hcurrent, ?_, hcount⟩
  intro e he
  rcases hmem e he with he | he
  · obtain ⟨t, ht, hconfirms⟩ := h.confirmed e he
    exact ⟨t, List.mem_append_left later ht, hconfirms⟩
  · exact ⟨w.files, hcurrent, he⟩

/-- A step keeps what holds, with the file system it leads to and the reading it makes. -/
theorem Sound.next (h : Sound seen count w) (step : Step) :
    Sound (seen ++ step.change?.toList) (count + inspections w.files [step]) (w.next step) := by
  cases step with
  | read p =>
    have hcount := w.cache.counted_read w.files p
    rw [h.counted] at hcount
    exact h.of_mem (w.next (.read p)) rfl (fun e he => IncludeCache.mem_read he) hcount []
  | invalidate p =>
    apply h.of_mem (w.next (.invalidate p)) rfl _ h.counted
    exact fun e he => Or.inl (IncludeCache.mem_of_mem_invalidate he)
  | clear =>
    apply h.of_mem (w.next .clear) rfl _ h.counted
    intro e he
    cases he
  | forget uri =>
    rcases w.documents.cache_forget w.files uri with hcache | ⟨p, hcache⟩
    · have hsame : (w.next (.forget uri)).cache = w.cache := hcache
      apply h.of_mem (w.next (.forget uri)) rfl _ (hsame ▸ h.counted)
      exact fun e he => Or.inl (hsame ▸ he)
    · have hless : (w.next (.forget uri)).cache = w.cache.invalidate p := hcache
      apply h.of_mem (w.next (.forget uri)) rfl _ (hless ▸ h.counted)
      intro e he
      rw [hless] at he
      exact Or.inl (IncludeCache.mem_of_mem_invalidate he)
  | change files =>
    refine ⟨by simp [Step.change?, Workspace.next], ?_, h.counted⟩
    intro e he
    obtain ⟨t, ht, hconfirms⟩ := h.confirmed e he
    exact ⟨t, List.mem_append_left _ ht, hconfirms⟩

theorem files_next (w : Workspace α) (step : Step) :
    (w.next step).files = step.change?.getD w.files := by
  cases step <;> rfl

theorem inspections_cons (files : FileTree) (step : Step) (steps : List Step) :
    inspections files (step :: steps) =
      inspections files [step] + inspections (step.change?.getD files) steps := by
  cases step with
  | read p => rfl
  | _ => exact (Nat.zero_add _).symm

/-- A history keeps what holds. -/
theorem Sound.after (h : Sound seen count w) (steps : List Step) :
    Sound (seen ++ steps.filterMap Step.change?) (count + inspections w.files steps)
      (w.after steps) := by
  induction steps generalizing seen count w with
  | nil => simpa [inspections, Workspace.after] using h
  | cons step steps ih =>
    have hrest := ih (h.next step)
    rw [files_next, Nat.add_assoc, ← inspections_cons, List.append_assoc] at hrest
    have hchanges : step.change?.toList ++ steps.filterMap Step.change? =
        (step :: steps).filterMap Step.change? := by
      cases step <;> rfl
    rw [hchanges] at hrest
    exact hrest

/-- Nothing is held at first, whatever documents there are. -/
theorem sound_empty (files : FileTree) (results : List (String × α)) :
    Sound [files] 0 ⟨files, { results }⟩ := by
  refine ⟨List.mem_singleton_self files, ?_, rfl⟩
  intro e he
  cases he

/-- Texts that were confirmed at their time are true as long as files keep their dates. -/
theorem Sound.faithful (h : Sound seen count w) (hdated : Dated seen) :
    w.cache.Faithful w.files := by
  intro p f status hf hstat hmodified
  obtain ⟨t, ht, before, hbefore, hdate, htext⟩ :=
    h.confirmed (p, f) (IncludeCache.mem_of_get? hf)
  have hsame := hdated t ht w.files h.current p before status hbefore hstat
    (hdate.trans hmodified)
  rw [← hsame]
  exact htext

theorem Dated.left {later : List FileTree} (h : Dated (seen ++ later)) : Dated seen := by
  intro t ht t' ht'
  exact h t (List.mem_append_left later ht) t' (List.mem_append_left later ht')

/-- The texts that are held cannot be told from the files: in every history in which files keep
their dates, a reading answers as the file system does at that moment and forgets a file that is
gone; what is held is what a file had to say at the time it tells; and hits and misses together
are the readings whose file could be inspected. -/
theorem read_transparent (files : FileTree) (results : List (String × α)) (steps : List Step)
    (hdated : Dated (trees files steps)) :
    let start : Workspace α := ⟨files, { results }⟩
    let w := start.after steps
    (∀ before p later, steps = before ++ .read p :: later →
      let v := start.after before
      (v.cache.read v.files p).1 = IncludeCache.readDirectly v.files p ∧
        (v.files.stat p = .error .notFound → (v.next (.read p)).cache.contains p = false)) ∧
      (∀ e ∈ w.cache.files, ∃ t ∈ trees files steps, t.Confirms e) ∧
      w.cache.hits + w.cache.misses = inspections files steps := by
  intro start w
  have hsound : Sound (trees files steps) (inspections files steps) w := by
    simpa [trees] using (sound_empty files results).after steps
  refine ⟨?_, hsound.confirmed, hsound.counted⟩
  rintro before p later rfl v
  have hbefore : Sound (trees files before) (inspections files before) v := by
    simpa [trees] using (sound_empty files results).after before
  have hpast : Dated (trees files before) := by
    have hsplit : trees files (before ++ .read p :: later) =
        trees files before ++ later.filterMap Step.change? := by
      simp [trees, List.filterMap_cons, Step.change?]
    rw [hsplit] at hdated
    exact hdated.left
  exact ⟨(hbefore.faithful hpast).read_eq_readDirectly p,
    fun hgone => v.cache.contains_read_of_notFound hgone⟩

/-- File systems in which the time of modification alone settles what a path has to say. -/
theorem dated_of_version {trees : List FileTree} (version : Int → Except ReadError String)
    (h : ∀ t ∈ trees, ∀ p status, t.stat p = .ok status →
      t.readText p = version status.modified) : Dated trees := by
  intro t ht t' ht' p status status' hstat hstat' hmodified
  rw [h t ht p status hstat, h t' ht' p status' hstat', hmodified]

section

variable {t : FileTree} {text : String} {modified : Int}

/-- Where every entry is the same text, a path leads to that text or to a directory. -/
theorem find_of_texts (ht : ∀ e ∈ t.entries, e.2 = { content := .text text, modified }) {q : Path}
    {e : Entry} (h : t.find q = .ok e) :
    e = { content := .text text, modified } ∨ e = { isDirectory := true } := by
  unfold FileTree.find at h
  split at h
  · cases h
  split at h
  · cases h
  split at h
  · rename_i found hfound
    obtain ⟨front, back, hsplit, -⟩ := List.lookup_eq_some_iff.mp hfound
    have hmem : (q, found) ∈ t.entries := by simp [hsplit]
    cases h
    exact Or.inl (ht (q, e) hmem)
  · split at h
    · cases h
      exact Or.inr rfl
    · split at h <;> cases h

theorem readText_of_texts (ht : ∀ e ∈ t.entries, e.2 = { content := .text text, modified })
    {p : Path} {status : FileStatus} (hstat : t.stat p = .ok status) :
    (status.modified = modified ∧
        t.readText p = .ok (String.ofList (Text.universalNewlines text.toList))) ∨
      status.modified = 0 ∧ t.readText p = .error (.os .isDirectory) := by
  unfold FileTree.stat at hstat
  unfold FileTree.readText
  cases hfind : t.find (Path.absolute t.cwd p) with
  | error e =>
    rw [hfind] at hstat
    cases hstat
  | ok e =>
    rw [hfind] at hstat
    rcases find_of_texts ht hfind with rfl | rfl
    · cases hstat
      exact Or.inl ⟨rfl, rfl⟩
    · cases hstat
      exact Or.inr ⟨rfl, rfl⟩

end

theorem read_transparent_recreated_file :
    let cwd := Path.ofString "/ws"
    let p := Path.ofString "/ws/inc.prl"
    let tree (text : String) (modified : Int) : FileTree :=
      { entries := [(p, { content := .text text, modified })], cwd }
    let steps : List Step :=
      [.clear, .read p, .read p, .change { cwd }, .forget "file:///ws/main.prl", .read p,
        .change (tree "B" 2), .read p, .invalidate cwd, .change (tree "A" 1), .read p]
    let start : Workspace Unit := ⟨tree "A" 1, { results := [("file:///ws/main.prl", ())] }⟩
    let gone := start.after (steps.take 5)
    let w := start.after steps
    Dated (trees (tree "A" 1) steps) ∧
      (gone.cache.read gone.files p).1 = .error .missing ∧
      (gone.next (.read p)).cache.contains p = false ∧
      (∀ e ∈ w.cache.files, ∃ t ∈ trees (tree "A" 1) steps, t.Confirms e) ∧
      w.cache.contains p = true ∧ w.cache.hits + w.cache.misses = 4 := by
  intro cwd p tree steps start gone w
  have hdated : Dated (trees (tree "A" 1) steps) := by
    let version (modified : Int) : Except ReadError String :=
      if modified = 0 then .error (.os .isDirectory) else .ok (if modified = 1 then "A" else "B")
    have hversion : ∀ t ∈ trees (tree "A" 1) steps, ∃ text modified,
        (∀ e ∈ t.entries, e.2 = { content := .text text, modified }) ∧
          version modified = .ok (String.ofList (Text.universalNewlines text.toList)) := by
      have htrees : trees (tree "A" 1) steps =
          [tree "A" 1, { cwd }, tree "B" 2, tree "A" 1] := rfl
      rw [htrees]
      simp only [List.forall_mem_cons]
      exact ⟨⟨"A", 1, by simp [tree], by decide +kernel⟩, ⟨"A", 1, by simp, by decide +kernel⟩,
        ⟨"B", 2, by simp [tree], by decide +kernel⟩, ⟨"A", 1, by simp [tree], by decide +kernel⟩,
        by simp⟩
    apply dated_of_version version
    intro t ht q status hstat
    obtain ⟨text, modified, hentries, htext⟩ := hversion t ht
    rcases readText_of_texts hentries hstat with ⟨hdate, hread⟩ | ⟨hdate, hread⟩
    · rw [hread, hdate, htext]
    · rw [hread, hdate]
      rfl
  obtain ⟨hreads, hconfirmed, hcount⟩ :=
    read_transparent (tree "A" 1) [("file:///ws/main.prl", ())] steps hdated
  obtain ⟨hgone, hforgotten⟩ := hreads (steps.take 5) p (steps.drop 6) rfl
  have hmissing : gone.files.stat p = .error .notFound := by decide +kernel
  refine ⟨hdated, ?_, hforgotten hmissing, hconfirmed, by decide +kernel, hcount.trans ?_⟩
  · rw [hgone, IncludeCache.readDirectly, hmissing]
    rfl
  · decide +kernel

end CacheHistory

end Pearl
