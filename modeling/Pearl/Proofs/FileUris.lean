import Pearl.Proofs.IncludeChain

namespace Pearl

/-! ### Paths in normal form -/

namespace Path

/-- A written path is absolute and in normal form: after a slash come its components, with one
slash between two of them, and none is empty, a dot or two dots. -/
def IsNormal (s : String) : Prop :=
  ∃ parts : List String, s = "/" ++ "/".intercalate parts ∧
    ∀ part ∈ parts, part ≠ "" ∧ part ≠ "." ∧ part ≠ ".." ∧ '/' ∉ part.toList

/-- The normal forms are how resolved paths are written. -/
theorem isNormal_iff {s : String} : IsNormal s ↔ ∃ p : Path, p.IsResolved ∧ p.toString = s := by
  constructor
  · intro h
    obtain ⟨parts, hs, hparts⟩ := h
    have hcomponents : ∀ part ∈ parts, IsComponent part := by
      intro part hpart
      obtain ⟨hempty, hdot, -, hslash⟩ := hparts part hpart
      exact ⟨hempty, hdot, hslash⟩
    have hup : ".." ∉ parts := fun hmem => (hparts ".." hmem).2.2.1 rfl
    refine ⟨⟨.root, parts, hcomponents⟩, ⟨rfl, hup⟩, ?_⟩
    rw [hs]
    rfl
  · intro h
    obtain ⟨p, ⟨hroot, hup⟩, hs⟩ := h
    refine ⟨p.parts, ?_, ?_⟩
    · rw [← hs, toString, hroot]
      rfl
    · intro part hpart
      obtain ⟨hempty, hdot, hslash⟩ := p.isComponent part hpart
      exact ⟨hempty, hdot, fun he => hup (he ▸ hpart), hslash⟩

/-- A path in normal form is read without a loss, and is resolved already. -/
theorem ofString_of_isNormal {s : String} (h : IsNormal s) :
    (ofString s).IsResolved ∧ (ofString s).toString = s := by
  obtain ⟨p, hp, hs⟩ := isNormal_iff.mp h
  have hread := ofString_toString p hp.1
  rw [hs] at hread
  rw [hread]
  exact ⟨hp, hs⟩

end Path

namespace Uri

/-- The URI of a written path that is seen from the directory `cwd`. -/
def ofFile (cwd : Path) (s : String) : String := ofPath (Path.absolute cwd (Path.ofString s))

theorem toPath_ofFile (cwd : Path) {s : String} (h : Path.IsNormal s) :
    toPath (ofFile cwd s) = .ok (Path.ofString s) := by
  obtain ⟨hresolved, -⟩ := Path.ofString_of_isNormal h
  rw [ofFile, Path.absolute_of_isResolved cwd _ hresolved]
  exact toPath_ofPath _ hresolved.1

/-- The document with the URI of a path is at that path, and is being read from there. -/
theorem ofUri_ofFile {files : FileTree} {s : String} (h : Path.IsNormal s) {p : Path}
    (hp : files.resolve (Path.ofString s) = .ok p) :
    Scan.Source.ofUri files (ofFile files.cwd s) =
      .ok ⟨ofFile files.cwd s, some (Path.ofString s), [Path.ofString s]⟩ := by
  have hfile : isFile (ofFile files.cwd s) = true := isFile_ofPath _
  obtain ⟨hresolved, -⟩ := Path.ofString_of_isNormal h
  have hlocate : files.locate (ofFile files.cwd s) = .ok (Path.ofString s) := by
    rw [files.eq_of_resolve hresolved hp] at hp
    exact FileTree.locate_eq_ok.mpr ⟨Path.ofString s, toPath_ofFile files.cwd h, hp⟩
  rw [Scan.Source.ofUri, if_pos hfile, hlocate]
  rfl

/-- A path in normal form, whatever characters are in it, is read back from its URI: the same path,
written in the same way, in every current directory; where it can be resolved, it is the path of the
document with this URI. So no two such paths have the same URI. -/
theorem file_path_read_back :
    (∀ cwd s, Path.IsNormal s →
      toPath (ofFile cwd s) = .ok (Path.ofString s) ∧ (Path.ofString s).toString = s ∧
      ∀ files : FileTree, files.cwd = cwd →
        ∀ p, files.resolve (Path.ofString s) = .ok p → Scan.Source.ofUri files (ofFile cwd s) =
          .ok ⟨ofFile cwd s, some (Path.ofString s), [Path.ofString s]⟩) ∧
    ∀ cwd cwd' s t, Path.IsNormal s → Path.IsNormal t → ofFile cwd s = ofFile cwd' t → s = t := by
  constructor
  · intro cwd s h
    refine ⟨toPath_ofFile cwd h, (Path.ofString_of_isNormal h).2, ?_⟩
    rintro files rfl p hp
    exact ofUri_ofFile h hp
  · intro cwd cwd' s t hs ht huri
    have hpath : (Except.ok (Path.ofString s) : Except UriError Path) = .ok (Path.ofString t) := by
      rw [← toPath_ofFile cwd hs, huri, toPath_ofFile cwd' ht]
    calc
      s = (Path.ofString s).toString := (Path.ofString_of_isNormal hs).2.symm
      _ = (Path.ofString t).toString := by rw [Except.ok.inj hpath]
      _ = t := (Path.ofString_of_isNormal ht).2

/-- Blanks, delimiters, a control character, characters of two to four bytes, and what looks like an
escape. -/
theorem file_path_read_back_escaped :
    let cwd := Path.ofString "/ws"
    let s := "/ws/a b%41#?;&\x01/ä€😀~."
    let t := "/ws/a b%2541#?;&\x01/ä€😀~."
    Path.IsNormal s ∧ Path.IsNormal t ∧
    ofFile cwd s = "file:///ws/a%20b%2541%23%3F%3B%26%01/%C3%A4%E2%82%AC%F0%9F%98%80~." ∧
    toPath (ofFile cwd s) = .ok (Path.ofString s) ∧ (Path.ofString s).toString = s ∧
    ofFile cwd s ≠ ofFile cwd t := by
  intro cwd s t
  have hs : Path.IsNormal s := ⟨["ws", "a b%41#?;&\x01", "ä€😀~."], by decide +kernel, by decide⟩
  have ht : Path.IsNormal t := ⟨["ws", "a b%2541#?;&\x01", "ä€😀~."], by decide +kernel, by decide⟩
  obtain ⟨hback, hwritten, -⟩ := file_path_read_back.1 cwd s hs
  refine ⟨hs, ht, by decide +kernel, hback, hwritten, ?_⟩
  intro huri
  exact absurd (file_path_read_back.2 cwd cwd s t hs ht huri) (by decide)

end Uri

end Pearl
