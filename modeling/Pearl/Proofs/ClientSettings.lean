import Mathlib.Data.List.Induction
import Pearl.Proofs.IncludeNesting
import Pearl.Proofs.PublishedFindings

namespace Pearl

/-! ### Entries given one after the other -/

namespace Entries

variable {α : Type}

/-- The entries that are left of a row of them, in which a name may be given several values. -/
def collect (entries : List (String × α)) : List (String × α) :=
  entries.foldl (fun values e => assign e.1 e.2 values) []

theorem collect_concat (entries : List (String × α)) (e : String × α) :
    collect (entries ++ [e]) = assign e.1 e.2 (collect entries) := by
  simp [collect]

/-- The last value of a name counts. -/
theorem lookup_collect (entries : List (String × α)) (name : String) :
    (collect entries).lookup name = entries.reverse.lookup name := by
  induction entries using List.reverseRecOn with
  | nil => rfl
  | append_singleton entries e ih =>
    rw [collect_concat, lookup_assign, ih, List.reverse_concat, List.lookup_cons]
    by_cases h : name = e.1
    · simp [h]
    · rw [if_neg h, beq_eq_false_iff_ne.mpr h]

/-- A name stands where it came up first. -/
theorem names_collect (entries : List (String × α)) :
    (collect entries).map (·.1) = (entries.map (·.1)).eraseDups := by
  induction entries using List.reverseRecOn with
  | nil => rfl
  | append_singleton entries e ih =>
    rw [collect_concat, names_assign, ih, List.map_append, List.eraseDups_append]
    by_cases h : e.1 ∈ entries.map (·.1)
    · simp [h, List.removeAll]
    · simp [h, List.removeAll, List.eraseDups_cons]

end Entries

/-! ### Names of modes and levels -/

theorem IncludeMode.ofName?_eq_some_iff {name : String} {mode : IncludeMode} :
    IncludeMode.ofName? name = some mode ↔ name = mode.name := by
  constructor
  · intro h
    unfold IncludeMode.ofName? at h
    split at h <;> cases h <;> rfl
  · rintro rfl
    cases mode <;> rfl

theorem LogLevel.ofName?_eq_some_iff {name : String} {level : LogLevel} :
    LogLevel.ofName? name = some level ↔ name = level.name := by
  constructor
  · intro h
    unfold LogLevel.ofName? at h
    split at h <;> cases h <;> rfl
  · rintro rfl
    cases level <;> rfl

namespace Settings

open Text

/-! ### The keys of settings -/

/-- The fields that options are read from: those of the section, if there is one, or all. -/
def sectionFields : Value → List (String × Value)
  | .object fields =>
    match Value.field? "pearl" fields with
    | none => fields
    | some (.object inner) => inner
    | some _ => []
  | _ => []

def key? (settings : Value) (key : String) : Option Value :=
  Value.field? key (sectionFields settings)

/-- The name that a value gives. Upper and lower case are the same in it, and an empty value gives
none. -/
def chosen? : Option Value → Option String
  | none => none
  | some v => if v.isEmpty then none else some (lowerString v.text)

/-- The macros that a value stands for, in order. A list with an item that is no definition stands
for none. -/
def macros? : Value → Option (List (String × String))
  | .object fields =>
    some (fields.map fun f => (f.1, match f.2 with | .null => "" | v => v.text))
  | .list items => items.mapM fun item => definition? item.text
  | _ => none

/-- The macros that settings set up, in order. -/
def macros (settings : Value) : List (String × String) :=
  ((key? settings "predefinedMacros").bind macros?).getD []

/-- Settings that can be read: objects, and whatever is empty. -/
def isReadable : Value → Bool
  | .object _ => true
  | v => v.isEmpty

/-- The options that settings ask for. Each goes by its own key, and has its default if that key
has no valid value. -/
structure AskFor (settings : Value) (root : Option Path) (o : Options) : Prop where
  names : o.predefined.map (·.1) = ((macros settings).map (·.1)).eraseDups
  values : ∀ name, o.predefined.lookup name = (macros settings).reverse.lookup name
  mode : ∀ mode : IncludeMode, chosen? (key? settings "includeMode") = some mode.name →
    o.includeMode = mode
  noMode : (∀ mode : IncludeMode, chosen? (key? settings "includeMode") ≠ some mode.name) →
    o.includeMode = ({} : Options).includeMode
  level : ∀ level : LogLevel, chosen? (key? settings "logLevel") = some level.name →
    o.logLevel = some level
  noLevel : (∀ level : LogLevel, chosen? (key? settings "logLevel") ≠ some level.name) →
    o.logLevel = ({} : Options).logLevel
  others : o = { predefined := o.predefined, includeMode := o.includeMode,
                 workspaceRoot := root, logLevel := o.logLevel }

/-! ### Reading one key -/

theorem definitions_concat (items : List String) (item : String) :
    definitions (items ++ [item]) = (definitions items).bind fun values =>
      match definition? item with
      | some (name, value) => .ok (Entries.assign name value values)
      | none => .error ⟨item⟩ := by
  rw [definitions, List.foldlM_append]
  simp only [List.foldlM_cons, List.foldlM_nil, bind_pure]
  rfl

theorem toOption_definitions (items : List String) :
    (definitions items).toOption = (items.mapM definition?).map Entries.collect := by
  induction items using List.reverseRecOn with
  | nil => rfl
  | append_singleton items item ih =>
    rw [definitions_concat, List.mapM_append, List.mapM_cons, List.mapM_nil]
    cases hitems : definitions items with
    | error e =>
      rw [hitems] at ih
      rw [Option.map_eq_none_iff.mp ih.symm]
      rfl
    | ok values =>
      rw [hitems] at ih
      obtain ⟨entries, hentries, rfl⟩ := Option.map_eq_some_iff.mp ih.symm
      rw [hentries]
      cases definition? item with
      | none => rfl
      | some e => exact congrArg some (Entries.collect_concat entries e).symm

theorem readMacros_fst (v : Option Value) :
    (readMacros v).1 = Entries.collect ((v.bind macros?).getD []) := by
  cases v with
  | none => rfl
  | some v =>
    cases v with
    | object fields =>
      rw [Option.bind_some, macros?, Option.getD_some, Entries.collect, List.foldl_map]
      rfl
    | list items =>
      have hread := toOption_definitions (items.map Value.text)
      have hmacros : macros? (.list items) = (items.map Value.text).mapM definition? := by
        rw [macros?, List.mapM_map]
        rfl
      rw [← hmacros] at hread
      rw [Option.bind_some, readMacros]
      cases hitems : definitions (items.map Value.text) with
      | error e =>
        rw [hitems] at hread
        rw [Option.map_eq_none_iff.mp hread.symm]
        rfl
      | ok values =>
        rw [hitems] at hread
        obtain ⟨entries, hentries, rfl⟩ := Option.map_eq_some_iff.mp hread.symm
        rw [hentries]
        rfl
    | _ => rfl

theorem readMode_fst (v : Option Value) :
    (readMode v).1 = ((chosen? v).bind IncludeMode.ofName?).getD .file := by
  cases v with
  | none => rfl
  | some v =>
    rw [readMode, chosen?]
    split
    · rfl
    · rw [Option.bind_some]
      cases IncludeMode.ofName? (lowerString v.text) <;> rfl

theorem readLogLevel_fst (v : Option Value) :
    (readLogLevel v).1 = (chosen? v).bind LogLevel.ofName? := by
  cases v with
  | none => rfl
  | some v =>
    rw [readLogLevel, chosen?]
    split
    · rfl
    · rw [Option.bind_some]
      cases LogLevel.ofName? (lowerString v.text) <;> rfl

/-! ### Reading all keys -/

def byKeys (settings : Value) (root : Option Path) : Options where
  predefined := (readMacros (key? settings "predefinedMacros")).1
  includeMode := (readMode (key? settings "includeMode")).1
  workspaceRoot := root
  logLevel := (readLogLevel (key? settings "logLevel")).1

/-- Whatever is not the name of something stands for nothing. -/
theorem bind_ofName?_eq_none {α : Type} {ofName? : String → Option α} {name : α → String}
    (hname : ∀ n a, ofName? n = some a ↔ n = name a) {chosen : Option String}
    (h : ∀ a, chosen ≠ some (name a)) : chosen.bind ofName? = none := by
  rw [Option.eq_none_iff_forall_ne_some]
  intro a ha
  obtain ⟨n, rfl, hn⟩ := Option.bind_eq_some_iff.mp ha
  exact h a (congrArg some ((hname n a).mp hn))

theorem askFor_byKeys (settings : Value) (root : Option Path) :
    AskFor settings root (byKeys settings root) := by
  have hmacros : (byKeys settings root).predefined = Entries.collect (macros settings) :=
    readMacros_fst _
  have hmode := readMode_fst (key? settings "includeMode")
  have hlevel := readLogLevel_fst (key? settings "logLevel")
  refine ⟨?_, ?_, ?_, ?_, ?_, ?_, rfl⟩
  · rw [hmacros, Entries.names_collect]
  · intro name
    rw [hmacros, Entries.lookup_collect]
  · intro mode h
    rw [byKeys, hmode, h, Option.bind_some, IncludeMode.ofName?_eq_some_iff.mpr rfl,
      Option.getD_some]
  · intro h
    rw [byKeys, hmode, bind_ofName?_eq_none (fun _ _ => IncludeMode.ofName?_eq_some_iff) h]
    rfl
  · intro level h
    rw [byKeys, hlevel, h, Option.bind_some, LogLevel.ofName?_eq_some_iff.mpr rfl]
  · intro h
    rw [byKeys, hlevel, bind_ofName?_eq_none (fun _ _ => LogLevel.ofName?_eq_some_iff) h]

theorem key?_of_isEmpty {settings : Value} (h : settings.isEmpty = true) (key : String) :
    key? settings key = none := by
  cases settings with
  | object fields =>
    rw [List.isEmpty_iff.mp h]
    rfl
  | _ => rfl

theorem toOptions_of_isReadable {settings : Value} (h : isReadable settings = true)
    (root : Option Path) :
    ∃ warnings, toOptions settings root = .ok (byKeys settings root, warnings) := by
  unfold toOptions
  split
  · rename_i hempty
    simp only [byKeys, key?_of_isEmpty hempty]
    exact ⟨_, rfl⟩
  · rename_i hempty
    cases settings with
    | object fields =>
      cases hpearl : Value.field? "pearl" fields with
      | none =>
        simp only [byKeys, key?, sectionFields, hpearl]
        exact ⟨_, rfl⟩
      | some inner =>
        cases inner <;> simp only [byKeys, key?, sectionFields, hpearl] <;> exact ⟨_, rfl⟩
    | _ => exact absurd h hempty

theorem toOptions_of_not_isReadable {settings : Value} (h : isReadable settings = false)
    (root : Option Path) : toOptions settings root = .error ⟨settings.typeName⟩ := by
  cases settings with
  | object fields => cases h
  | _ => exact if_neg (ne_true_of_eq_false h)

end Settings

namespace Session

variable {s s' : Session} {settings : Value}

/-! ### Settings in a session -/

theorem configure_of_isReadable (h : Settings.isReadable settings = true) (s : Session) :
    ∃ t, s.configure settings = .ok t ∧ t.documents = s.documents ∧
      t.options = Settings.byKeys settings s.workspaceRoot := by
  obtain ⟨warnings, hread⟩ := Settings.toOptions_of_isReadable h s.workspaceRoot
  rw [configure, hread]
  exact ⟨_, rfl, rfl, rfl⟩

theorem configure_of_not_isReadable (h : Settings.isReadable settings = false) (s : Session) :
    s.configure settings = .error (.settings ⟨settings.typeName⟩) := by
  rw [configure, Settings.toOptions_of_not_isReadable h]

/-- Takes over the last texts of documents again. None of them may be refused. -/
def refreshEach (s : Session) :
    List (String × Analysis) → Except Refusal (Session × List Publication)
  | [] => .ok (s, [])
  | (uri, a) :: rest =>
    match s.refresh uri (s.textOf uri) a.version with
    | .error r => .error r
    | .ok (s, published) =>
      match s.refreshEach rest with
      | .error r => .error r
      | .ok (s, later) => .ok (s, published ++ later)

/-- The URIs of all documents that are stored are well formed. -/
def WellNamed (s : Session) : Prop :=
  ∀ uri a, s.documents.get? uri = some a → Uri.isFile uri = true → ∃ p, Uri.toPath uri = .ok p

theorem WellNamed.of_mem (hs : s.WellNamed) {e : String × Analysis}
    (he : e ∈ s.documents.results) (hfile : Uri.isFile e.1 = true) :
    ∃ p, Uri.toPath e.1 = .ok p := by
  have hopen : s.documents.get? e.1 ≠ none := by
    rw [DocumentStore.get?, ne_eq, List.lookup_eq_none_iff]
    intro hall
    simpa using hall e he
  obtain ⟨a, ha⟩ := Option.ne_none_iff_exists'.mp hopen
  exact hs e.1 a ha hfile

theorem toPath_of_refresh {uri text : String} {version : Option Int} {pubs : List Publication}
    (h : s.refresh uri text version = .ok (s', pubs)) (hfile : Uri.isFile uri = true) :
    ∃ p, Uri.toPath uri = .ok p := by
  obtain ⟨middle, a, hanalyze, -⟩ := refresh_eq_ok h
  obtain ⟨src, hsrc, -⟩ := analyze_eq_ok hanalyze
  cases hpath : Uri.toPath uri with
  | ok p => exact ⟨p, rfl⟩
  | error e =>
    rw [Scan.Source.ofUri, if_pos hfile, FileTree.locate, hpath] at hsrc
    cases hsrc

theorem WellNamed.refresh (hs : s.WellNamed) {uri text : String} {version : Option Int}
    {pubs : List Publication} (h : s.refresh uri text version = .ok (s', pubs)) :
    s'.WellNamed := by
  obtain ⟨a, -, hdocuments, -⟩ := refresh_cases h
  intro other b hb hfile
  rw [hdocuments] at hb
  split at hb
  · rename_i hother
    exact toPath_of_refresh h (hother ▸ hfile) |>.imp fun p hp => hother ▸ hp
  · exact hs other b hb hfile

theorem WellNamed.of_eq (hs : s.WellNamed)
    (hresults : s'.documents.results = s.documents.results) : s'.WellNamed := by
  intro uri a ha
  rw [DocumentStore.get?, hresults] at ha
  exact hs uri a ha

theorem WellNamed.refreshAll (hs : s.WellNamed) (documents : List (String × Analysis)) :
    (s.refreshAll documents).1.WellNamed := by
  induction documents generalizing s with
  | nil => exact hs
  | cons e rest ih =>
    obtain ⟨uri, a⟩ := e
    rw [Session.refreshAll]
    cases h : s.refresh uri (s.textOf uri) a.version with
    | error r => exact hs.of_eq (retains_of_refused h).results
    | ok r => exact ih (hs.refresh h)

theorem WellNamed.receive (hs : s.WellNamed) (m : Message) : (s.receive m).1.WellNamed := by
  cases m with
  | start root folders settings =>
    exact hs.of_eq (congrArg _ (reset_start s root folders settings).documents)
  | files tree => exact hs
  | reconfigure settings =>
    simp only [Session.receive, reconfigure]
    cases h : s.configure settings with
    | error e => exact hs
    | ok s' => exact (hs.of_eq (congrArg _ (reset_configure h).documents)).refreshAll _
  | refresh uri text version =>
    simp only [Session.receive]
    cases h : s.refresh uri text version with
    | error r => exact hs.of_eq (retains_of_refused h).results
    | ok r => exact hs.refresh h
  | close uri =>
    have hclosed : ∀ t : Session, (∀ other, t.documents.get? other =
        if other = uri then none else s.documents.get? other) → t.WellNamed := by
      intro t hget other a ha
      rw [hget] at ha
      split at ha
      · cases ha
      · exact hs other a ha
    simp only [Session.receive]
    cases h : s.close uri with
    | error r => exact hclosed _ (close_eq_error h).1
    | ok r => exact hclosed _ (close_cases h).1

theorem History.wellNamed_ofMessages (files : FileTree) (ms : List Message) :
    (History.ofMessages files ms).session.WellNamed := by
  have hnext : ∀ (ms : List Message) (h : History), h.session.WellNamed →
      (ms.foldl next h).session.WellNamed := by
    intro ms
    induction ms with
    | nil => exact fun h hh => hh
    | cons m ms ih => exact fun h hh => ih (h.next m) (hh.receive m)
  refine hnext ms _ ?_
  intro uri a ha
  cases ha

/-- A document whose URI is well formed is refused only for a path that cannot be resolved: its own
or one that it names. -/
theorem exists_path_of_refused {uri text : String} {version : Option Int} {r : Refusal}
    (hpath : Uri.isFile uri = true → ∃ p, Uri.toPath uri = .ok p)
    (h : s.refresh uri text version = .error r) : ∃ e, r.error = .document (.path e) := by
  obtain ⟨e, cache, rfl, ⟨hsrc, -⟩ | ⟨src, -, hresult, -⟩⟩ :=
    analyze_eq_error (refresh_eq_error h)
  · cases hfile : Uri.isFile uri with
    | false =>
      rw [Scan.Source.ofUri, if_neg (by simp [hfile])] at hsrc
      cases hsrc
    | true =>
      obtain ⟨p, hp⟩ := hpath hfile
      obtain ⟨e', -, rfl⟩ := Scan.resolve_of_ofUri (σ := { files := s.files }) hp hsrc
      exact ⟨e', rfl⟩
  · have hfailure := Analysis.failure_of_attempt hresult
    obtain ⟨e', rfl⟩ := Scan.exists_path_of_failure rfl _ _ _ _ hfailure
    exact ⟨e', rfl⟩

/-- Documents are analysed again to the last, or up to one that is refused. -/
theorem refreshAll_cases (documents : List (String × Analysis)) (s : Session)
    (hnamed : ∀ e ∈ documents, Uri.isFile e.1 = true → ∃ p, Uri.toPath e.1 = .ok p) :
    ∃ done later u pubs, documents = done ++ later ∧ s.refreshEach done = .ok (u, pubs) ∧
      (later = [] ∧ s.refreshAll documents = (u, pubs, none) ∨
        ∃ e rest r p, later = e :: rest ∧
          u.refresh e.1 (u.textOf e.1) e.2.version = .error r ∧ r.error = .document (.path p) ∧
          s.refreshAll documents = (r.session, pubs, some r.error)) := by
  induction documents generalizing s with
  | nil => exact ⟨[], [], s, [], rfl, rfl, .inl ⟨rfl, rfl⟩⟩
  | cons e rest ih =>
    obtain ⟨uri, a⟩ := e
    cases h : s.refresh uri (s.textOf uri) a.version with
    | error r =>
      obtain ⟨p, hp⟩ := exists_path_of_refused (hnamed (uri, a) (by simp)) h
      refine ⟨[], (uri, a) :: rest, s, [], rfl, rfl, .inr ⟨(uri, a), rest, r, p, rfl, h, hp, ?_⟩⟩
      rw [refreshAll, h]
    | ok r =>
      obtain ⟨t, published⟩ := r
      obtain ⟨done, later, u, pubs, hsplit, hdone, hend⟩ :=
        ih t fun e he => hnamed e (List.mem_cons_of_mem _ he)
      refine ⟨(uri, a) :: done, later, u, published ++ pubs, by rw [hsplit]; rfl, ?_, ?_⟩
      · rw [refreshEach, h]
        simp only [hdone]
      · rw [refreshAll, h]
        rcases hend with ⟨hlater, hall⟩ | ⟨e, rest', r, p, hlater, hrefused, hp, hall⟩
        · exact .inl ⟨hlater, by simp only [hall]⟩
        · exact .inr ⟨e, rest', r, p, hlater, hrefused, hp, by simp only [hall]⟩

theorem options_refresh {uri text : String} {version : Option Int} {pubs : List Publication}
    (h : s.refresh uri text version = .ok (s', pubs)) : s'.options = s.options := by
  obtain ⟨middle, a, hanalyze, hpublish⟩ := refresh_eq_ok h
  obtain ⟨src, -, -, rfl⟩ := analyze_eq_ok hanalyze
  cases hpublish
  rfl

theorem options_refreshAll (documents : List (String × Analysis)) (s : Session) :
    (s.refreshAll documents).1.options = s.options := by
  induction documents generalizing s with
  | nil => rfl
  | cons e rest ih =>
    obtain ⟨uri, a⟩ := e
    rw [refreshAll]
    cases h : s.refresh uri (s.textOf uri) a.version with
    | error r => exact (retains_of_refused h).options
    | ok r => exact (ih r.1).trans (options_refresh h)

theorem options_reconfigure (h : Settings.isReadable settings = true) (s : Session) :
    (s.reconfigure settings).1.options = Settings.byKeys settings s.workspaceRoot := by
  obtain ⟨t, ht, -, hoptions⟩ := configure_of_isReadable h s
  rw [reconfigure, ht]
  exact (options_refreshAll _ t).trans hoptions

section Start

variable {root : Option String} {folders : List String}

theorem start_of_isReadable (h : Settings.isReadable settings = true)
    (hroot : s.enterRoot (rootUri root folders) = .ok s') :
    ∃ t, s.start root folders settings = (t, none) ∧
      t.options = Settings.byKeys settings s'.workspaceRoot := by
  obtain ⟨t, ht, -, hoptions⟩ := configure_of_isReadable h s'
  refine ⟨t, ?_, hoptions⟩
  simp only [start, hroot, ht]

theorem start_of_not_isReadable (h : Settings.isReadable settings = false)
    (hroot : s.enterRoot (rootUri root folders) = .ok s') :
    s.start root folders settings = (s', some (.settings ⟨settings.typeName⟩)) := by
  simp only [start, hroot, configure_of_not_isReadable h]

end Start

/-- In every session, new settings that are empty or an object are applied, and the open documents
are analysed again, all of them unless one is refused for a path that cannot be resolved. Each
option goes by its own key: without a valid value there it has its default, and settings that agree
on the key agree on the option. Other settings are ignored. A session starts without an error
exactly if its settings are empty or an object, and reads them as later ones are read. -/
theorem options_by_own_keys (files : FileTree) (ms : List Message) (settings : Value) :
    let s := (History.ofMessages files ms).session
    (Settings.isReadable settings = false → s.reconfigure settings = (s, [], none)) ∧
    (Settings.isReadable settings = true →
      (∃ t done later u pubs, s.configure settings = .ok t ∧
        t.documents.results = done ++ later ∧ t.refreshEach done = .ok (u, pubs) ∧
        (later = [] ∧ s.reconfigure settings = (u, pubs, none) ∨
          ∃ e rest r p, later = e :: rest ∧
            u.refresh e.1 (u.textOf e.1) e.2.version = .error r ∧
            r.error = .document (.path p) ∧
            s.reconfigure settings = (r.session, pubs, some r.error))) ∧
      Settings.AskFor settings s.workspaceRoot (s.reconfigure settings).1.options ∧
      ∀ settings', Settings.isReadable settings' = true →
        let o := (s.reconfigure settings).1.options
        let o' := (s.reconfigure settings').1.options
        (Settings.key? settings "predefinedMacros" = Settings.key? settings' "predefinedMacros" →
          o.predefined = o'.predefined) ∧
        (Settings.key? settings "includeMode" = Settings.key? settings' "includeMode" →
          o.includeMode = o'.includeMode) ∧
        (Settings.key? settings "logLevel" = Settings.key? settings' "logLevel" →
          o.logLevel = o'.logLevel)) ∧
    (∀ root folders t, s.enterRoot (rootUri root folders) = .ok t →
      ((s.start root folders settings).2 = none ↔ Settings.isReadable settings = true) ∧
      (Settings.isReadable settings = true → (s.start root folders settings).1.options =
        { (s.reconfigure settings).1.options with workspaceRoot := t.workspaceRoot })) := by
  intro s
  refine ⟨?_, ?_, ?_⟩
  · intro h
    rw [reconfigure, configure_of_not_isReadable h]
  · intro h
    obtain ⟨t, ht, hdocuments, -⟩ := configure_of_isReadable h s
    refine ⟨?_, ?_, ?_⟩
    · have hnamed : t.WellNamed :=
        (History.wellNamed_ofMessages files ms).of_eq (congrArg _ hdocuments)
      obtain ⟨done, later, u, pubs, hsplit, hdone, hend⟩ :=
        refreshAll_cases _ t fun e he => hnamed.of_mem he
      rw [reconfigure, ht]
      exact ⟨t, done, later, u, pubs, rfl, hsplit, hdone, hend⟩
    · rw [options_reconfigure h]
      exact Settings.askFor_byKeys settings s.workspaceRoot
    · intro settings' h'
      simp only [options_reconfigure h, options_reconfigure h', Settings.byKeys]
      refine ⟨?_, ?_, ?_⟩
      · intro hkey
        rw [hkey]
      · intro hkey
        rw [hkey]
      · intro hkey
        rw [hkey]
  · intro root folders t hroot
    cases h : Settings.isReadable settings with
    | false =>
      rw [start_of_not_isReadable h hroot]
      simp
    | true =>
      obtain ⟨t', ht', hoptions⟩ := start_of_isReadable h hroot
      rw [ht', options_reconfigure h]
      exact ⟨by simp, fun _ => hoptions⟩

/-- A list of macros with an item that is no definition, and a log level that is no name, have no
part in the include mode. -/
theorem options_by_own_keys_invalid :
    let files : FileTree := { cwd := Path.ofString "/ws" }
    let s := (History.ofMessages files [.refresh "file:///ws/a" "" (some 1)]).session
    let settings : Value := .object [("pearl", .object [
      ("predefinedMacros", .list [.string "N = 1", .string "2"]),
      ("includeMode", .string "Workspace"), ("logLevel", .int 3)])]
    let other : Value := .object [("includeMode", .string "Workspace")]
    (Settings.isReadable settings = true ∧ Settings.isReadable other = true ∧
      Settings.isReadable (.list [.int 1]) = false ∧
      s.enterRoot (rootUri (some "file:///ws") []) =
        .ok { s with workspaceRoot := some (Path.ofString "/ws") }) ∧
    s.reconfigure (.list [.int 1]) = (s, [], none) ∧
    (s.reconfigure settings).2.2 = none ∧
    (s.reconfigure settings).1.options.includeMode = .workspace ∧
    (s.reconfigure settings).1.options.includeMode =
      (s.reconfigure other).1.options.includeMode ∧
    (s.reconfigure settings).1.options.logLevel = none ∧
    (s.reconfigure settings).1.options.predefined = [] ∧
    (s.start (some "file:///ws") [] settings).2 = none := by
  intro files s settings other
  have hs : Settings.isReadable settings = true := rfl
  have hother : Settings.isReadable other = true := rfl
  have hlist : Settings.isReadable (.list [.int 1]) = false := rfl
  have hroot : s.enterRoot (rootUri (some "file:///ws") []) =
      .ok { s with workspaceRoot := some (Path.ofString "/ws") } := by
    have hpath : Uri.toPath "file:///ws" = .ok (Path.ofString "/ws") := by decide +kernel
    have hfile : (rootUri (some "file:///ws") []).filter Uri.isFile = some "file:///ws" := by
      decide +kernel
    rw [enterRoot, hfile]
    simp only [hpath]
  obtain ⟨-, happly, hstart⟩ := options_by_own_keys files _ settings
  obtain ⟨-, hasked, hsame⟩ := happly hs
  refine ⟨⟨hs, hother, hlist, hroot⟩, (options_by_own_keys files _ (.list [.int 1])).1 hlist,
    by decide +kernel,
    hasked.mode .workspace (by decide +kernel), (hsame other hother).2.1 rfl,
    hasked.noLevel (by intro level; cases level <;> decide +kernel), ?_,
    (hstart _ _ _ hroot).1.mpr hs⟩
  have hnames := hasked.names
  rw [show Settings.macros settings = [] by decide +kernel] at hnames
  exact List.map_eq_nil_iff.mp hnames

/-- A session does not start with settings that are a list. -/
theorem start_refuses_list :
    let s : Session := { files := { cwd := Path.ofString "/ws" } }
    (s.start none [] (.list [.int 1])).2 = some (.settings ⟨"list"⟩) := rfl

end Session

end Pearl
