import Mathlib.Data.List.Induction
import Pearl.Proofs.CacheHistories
import Pearl.Proofs.ClientSettings

namespace Pearl

/-- What a new analyser with an empty cache makes of a text, unless the text is refused. -/
def Analysis.fresh? (files : FileTree) (options : Options) (uri text : String)
    (version : Option Int) : Option Analysis :=
  (Scan.Source.ofUri files uri).toOption.bind fun src =>
    (Analysis.attempt files options {} src text version).result.toOption

theorem Analysis.version_fresh? {files : FileTree} {options : Options} {uri text : String}
    {version : Option Int} {a : Analysis} (h : fresh? files options uri text version = some a) :
    a.version = version := by
  obtain ⟨src, -, hresult⟩ := Option.bind_eq_some_iff.mp h
  cases he : (attempt files options {} src text version).result with
  | error e =>
    rw [he] at hresult
    cases hresult
  | ok b =>
    rw [he] at hresult
    cases hresult
    rw [eq_run_of_attempt he]
    rfl

namespace Session

/-! ### Sessions with requests -/

inductive Request where
  | hover (uri : String) (line character : Int)
  | definition (uri : String) (line character : Int)
  | folding (uri : String)
  | semanticTokens (uri : String)
  | completion (uri : String) (line character : Int)
  | help (label : String) (number : Option Int)

inductive Answer where
  | hover (text : Option String)
  | definition (target : Option DefinitionTarget)
  | folding (regions : List FoldingRegion)
  | semanticTokens (numbers : List Int)
  | completion (proposals : Option (List Completion))
  | help (text : Option String)

def answer (s : Session) : Request → Answer
  | .hover uri line character => .hover (s.hover uri line character)
  | .definition uri line character => .definition (s.definitionAt uri line character)
  | .folding uri => .folding (s.foldingRegions uri)
  | .semanticTokens uri => .semanticTokens (s.semanticTokens uri)
  | .completion uri line character => .completion (s.completionsAt uri line character)
  | .help label number => .help (Completion.keywordHelp label number)

inductive Step where
  | message (m : Message)
  | request (r : Request)

namespace Step

def isStart : Step → Bool
  | message (.start ..) => true
  | _ => false

def sendsText : Step → Bool
  | message (.refresh ..) => true
  | _ => false

def changesFiles : Step → Bool
  | message (.files _) => true
  | _ => false

end Step

def serve (s : Session) : Step → Session × Option Answer
  | .message m => ((s.receive m).1, none)
  | .request r => (s, some (s.answer r))

def afterSteps (files : FileTree) (steps : List Step) : Session :=
  steps.foldl (fun s t => (s.serve t).1) { files }

/-- The text and version of a document that count after a step. -/
def sentBy (uri : String) (last : Option (String × Option Int)) :
    Step → Option (String × Option Int)
  | .message (.refresh u text version) => if uri = u then some (text, version) else last
  | .message (.close u) => if uri = u then none else last
  | _ => last

/-- The text and version of a document that were sent last, if it has not been closed since. -/
def lastSent (uri : String) (steps : List Step) : Option (String × Option Int) :=
  steps.foldl (sentBy uri) none

/-! ### What is stored, and why -/

/-- What the analysis of a document was made from. -/
structure Basis where
  options : Options
  text : String
  version : Option Int

/-- How what is stored for a document has come about. -/
structure Standing where
  /-- What its analysis was made from, if it is stored. -/
  basis : Option Basis := none
  /-- The text that was sent last has been refused. -/
  refused : Bool := false
  /-- When the settings were changed last, a document was refused before this one had been analysed
  again. -/
  skipped : Bool := false

/-- The standing of a document after others, or itself, were analysed again, up to one that was
refused. -/
def standAll (s : Session) (uri : String) (st : Standing) : List (String × Analysis) → Standing
  | [] => st
  | (u, a) :: rest =>
    match s.refresh u (s.textOf u) a.version with
    | .error _ => st
    | .ok (s', _) =>
      let st :=
        if uri = u then
          { st with basis := some ⟨s.options, s.textOf u, a.version⟩, skipped := false }
        else st
      s'.standAll uri st rest

/-- The standing of a document after a step. -/
def standBy (s : Session) (uri : String) (st : Standing) : Step → Standing
  | .message (.refresh u text version) =>
    if uri = u then
      match s.refresh u text version with
      | .error _ => { st with refused := true }
      | .ok _ => { basis := some ⟨s.options, text, version⟩ }
    else st
  | .message (.close u) => if uri = u then {} else st
  | .message (.reconfigure settings) =>
    match s.configure settings with
    | .error _ => st
    | .ok s => s.standAll uri { st with skipped := st.basis.isSome } s.documents.results
  | _ => st

def standAfter (uri : String) (s : Session) (st : Standing) : List Step → Standing
  | [] => st
  | t :: steps => standAfter uri (s.serve t).1 (s.standBy uri st t) steps

/-- The standing of a document after steps from the beginning of a session. -/
def standing (files : FileTree) (uri : String) (steps : List Step) : Standing :=
  standAfter uri { files } {} steps

/-! ### One document at a time -/

/-- The files are these, the cache tells what is in them, and no document is stored twice. -/
structure Sound (files : FileTree) (s : Session) : Prop where
  unchanged : s.files = files
  cache : s.documents.cache.Faithful files
  nodup : s.documents.uris.Nodup

variable {files : FileTree} {s s' : Session} {pubs : List Publication}
variable {uri text : String} {version : Option Int}

theorem nodup_uris_put {α : Type} {d : DocumentStore α} (h : d.uris.Nodup) (uri : String) (a : α) :
    (d.put uri a).uris.Nodup := by
  change ((Entries.assign uri a d.results).map (·.1)).Nodup
  rw [Entries.names_assign]
  split
  · exact h
  · rename_i hnew
    rw [List.nodup_append]
    refine ⟨h, by simp, ?_⟩
    intro u hu v hv
    rw [List.mem_singleton.mp hv]
    rintro rfl
    exact hnew hu

/-- A text is analysed as if nothing had been analysed before. -/
theorem Sound.analyze (hs : Sound files s) {a : Analysis}
    (h : s.analyze uri text version = .ok (s', a)) :
    Sound files s' ∧ s'.options = s.options ∧ s'.texts = Entries.assign uri text s.texts ∧
      Analysis.fresh? files s.options uri text version = some a := by
  obtain ⟨src, hsrc, hresult, rfl⟩ := analyze_eq_ok h
  rw [hs.unchanged] at hsrc hresult
  obtain ⟨hattempt, hcache⟩ := Analysis.attempt_of_faithful hs.cache s.options src text version
  rw [← hs.unchanged] at hcache
  refine ⟨⟨hs.unchanged, hs.unchanged ▸ hcache, nodup_uris_put hs.nodup uri a⟩, rfl, rfl, ?_⟩
  have hfresh : Analysis.fresh? files s.options uri text version =
      (Analysis.attempt files s.options {} src text version).result.toOption := by
    rw [Analysis.fresh?, hsrc]
    rfl
  rw [hfresh, ← hattempt, hresult]
  rfl

theorem Sound.refresh (hs : Sound files s) (h : s.refresh uri text version = .ok (s', pubs)) :
    Sound files s' ∧ s'.options = s.options ∧ s'.texts = Entries.assign uri text s.texts ∧
      ∃ a, Analysis.fresh? files s.options uri text version = some a ∧
        ∀ other, s'.documents.get? other =
          if other = uri then some a else s.documents.get? other := by
  obtain ⟨middle, a, hanalyze, hpublish⟩ := refresh_eq_ok h
  cases hpublish
  obtain ⟨hsound, hoptions, htexts, hfresh⟩ := hs.analyze hanalyze
  exact ⟨⟨hsound.unchanged, hsound.cache, hsound.nodup⟩, hoptions, htexts, a, hfresh,
    (analyze_cases hanalyze).2.2⟩

/-- A text that is refused may have been read in part, and what is in the cache is true. -/
theorem Sound.refresh_error (hs : Sound files s) {r : Refusal}
    (h : s.refresh uri text version = .error r) :
    Sound files r.session ∧ r.session.texts = Entries.assign uri text s.texts := by
  obtain ⟨e, cache, rfl, ⟨-, rfl⟩ | ⟨src, -, -, rfl⟩⟩ := analyze_eq_error (refresh_eq_error h)
  · exact ⟨⟨hs.unchanged, hs.cache, hs.nodup⟩, rfl⟩
  · have hcache := (Analysis.attempt_of_faithful hs.cache s.options src text version).2
    rw [← hs.unchanged] at hcache
    exact ⟨⟨hs.unchanged, hs.unchanged ▸ hcache, hs.nodup⟩, rfl⟩

/-- A document that is closed is forgotten, whether its path can be resolved or not. -/
theorem receive_close (s : Session) (uri : String) :
    ∃ included, (s.receive (.close uri)).1 = { s with
      texts := s.texts.filter (·.1 ≠ uri)
      documents := (s.documents.forget s.files uri).1
      included } := by
  simp only [receive, Session.close]
  generalize s.documents.forget s.files uri = forgotten
  obtain ⟨documents, e⟩ := forgotten
  cases e <;> exact ⟨_, rfl⟩

theorem Sound.close (hs : Sound files s) (uri : String) :
    Sound files (s.receive (.close uri)).1 ∧
      (s.receive (.close uri)).1.texts = s.texts.filter (·.1 ≠ uri) ∧
      ∀ other, (s.receive (.close uri)).1.documents.get? other =
        if other = uri then none else s.documents.get? other := by
  have hget := s.documents.get?_forget s.files uri
  have huris : (s.documents.forget s.files uri).1.uris.Nodup := by
    rw [DocumentStore.uris, DocumentStore.results_forget]
    exact hs.nodup.sublist (List.filter_sublist.map _)
  have hcache : (s.documents.forget s.files uri).1.cache.Faithful files := by
    rcases s.documents.cache_forget s.files uri with h | ⟨p, h⟩
    · rw [h]
      exact hs.cache
    · rw [h]
      exact hs.cache.invalidate p
  obtain ⟨included, hclose⟩ := receive_close s uri
  rw [hclose]
  exact ⟨⟨hs.unchanged, hcache, huris⟩, rfl, hget⟩

/-- A document is stored as a new analyser would analyse what its analysis was made from. Unless
it was refused that is what was sent last, and unless it was skipped that was with the present
options. -/
structure Current (files : FileTree) (s : Session) (uri : String)
    (sent : Option (String × Option Int)) (st : Standing) : Prop extends Sound files s where
  stored : s.documents.get? uri =
    st.basis.bind fun b => Analysis.fresh? files b.options uri b.text b.version
  analysed : ∀ b ∈ st.basis, (Analysis.fresh? files b.options uri b.text b.version).isSome = true
  text : s.texts.lookup uri = sent.map (·.1)
  known : st.basis.isSome = true → sent.isSome = true
  accepted : st.refused = false → sent = st.basis.map fun b => (b.text, b.version)
  options : st.skipped = false → ∀ b ∈ st.basis, b.options = s.options

variable {sent : Option (String × Option Int)} {st : Standing}

/-- What is stored for a document has a basis, and its text has been sent. -/
theorem Current.exists_basis (hs : Current files s uri sent st) {a : Analysis}
    (ha : s.documents.get? uri = some a) :
    ∃ b, st.basis = some b ∧ a.version = b.version ∧ s.texts.lookup uri = some (s.textOf uri) := by
  rw [hs.stored] at ha
  obtain ⟨b, hb, hfresh⟩ := Option.bind_eq_some_iff.mp ha
  refine ⟨b, hb, Analysis.version_fresh? hfresh, ?_⟩
  obtain ⟨t, ht⟩ := Option.isSome_iff_exists.mp (hs.known (by rw [hb]; rfl))
  rw [textOf, hs.text, ht]
  rfl

/-- A document is open if an analysis of it has been made. -/
theorem Current.contains_eq (hs : Current files s uri sent st) :
    s.documents.contains uri = st.basis.isSome := by
  rw [DocumentStore.contains, hs.stored]
  cases hb : st.basis with
  | none => rfl
  | some b => exact hs.analysed b hb

/-- Nothing changes for a document that is not concerned. -/
theorem Current.of_eq (hs : Current files s uri sent st) (hsound : Sound files s')
    (hoptions : s'.options = s.options) (htext : s'.texts.lookup uri = s.texts.lookup uri)
    (hget : s'.documents.get? uri = s.documents.get? uri) : Current files s' uri sent st :=
  ⟨hsound, hget.trans hs.stored, hs.analysed, htext.trans hs.text, hs.known, hs.accepted,
    fun h b hb => (hs.options h b hb).trans hoptions.symm⟩

/-- Nothing is stored for a document that has not been sent. -/
theorem current_of_none (hsound : Sound files s) (hget : s.documents.get? uri = none)
    (htext : s.texts.lookup uri = none) : Current files s uri none {} := by
  have hbasis : ∀ b, b ∉ ({} : Standing).basis := fun b => Option.not_mem_none b
  exact ⟨hsound, hget, fun b hb => absurd hb (hbasis b), htext, fun h => absurd h (by decide),
    fun _ => rfl, fun _ b hb => absurd hb (hbasis b)⟩

theorem current_of_fresh (hsound : Sound files s) {o : Options} {a : Analysis}
    (ho : s.options = o) (hfresh : Analysis.fresh? files o uri text version = some a)
    (hget : s.documents.get? uri = some a) (htext : s.texts.lookup uri = sent.map (·.1))
    (hknown : sent.isSome = true) (haccepted : st.refused = false → sent = some (text, version)) :
    Current files s uri sent
      { st with basis := some ⟨o, text, version⟩, skipped := false } := by
  refine ⟨hsound, ?_, ?_, htext, fun _ => hknown, haccepted, ?_⟩
  · rw [hget, Option.bind_some, hfresh]
  · rintro b ⟨⟩
    rw [hfresh]
    rfl
  · rintro - b ⟨⟩
    exact ho.symm

/-! ### All documents again -/

theorem Current.refreshAll (hs : Current files s uri sent st) (documents : List (String × Analysis))
    (hnodup : (documents.map (·.1)).Nodup)
    (hstored : ∀ e ∈ documents, s.documents.get? e.1 = some e.2) :
    Current files (s.refreshAll documents).1 uri sent (s.standAll uri st documents) := by
  induction documents generalizing s st with
  | nil => exact hs
  | cons e rest ih =>
    obtain ⟨u, a⟩ := e
    obtain ⟨hnew, hrest⟩ := List.nodup_cons.mp hnodup
    have ha := hstored (u, a) (by simp)
    have htexts : (Entries.assign u (s.textOf u) s.texts).lookup uri = s.texts.lookup uri := by
      rw [Entries.lookup_assign]
      split
      · rename_i hu
        subst hu
        obtain ⟨b, -, -, htext⟩ := hs.exists_basis ha
        exact htext.symm
      · rfl
    rw [Session.refreshAll, standAll]
    cases h : s.refresh u (s.textOf u) a.version with
    | error r =>
      obtain ⟨hsound, hassign⟩ := hs.toSound.refresh_error h
      have hkept := retains_of_refused h
      exact hs.of_eq hsound hkept.options (hassign ▸ htexts)
        (congrArg (List.lookup uri) hkept.results)
    | ok r =>
      obtain ⟨s', pubs⟩ := r
      obtain ⟨hsound, hoptions, hassign, b, hfresh, hget⟩ := hs.toSound.refresh h
      refine ih ?_ hrest ?_
      · split
        · rename_i hu
          subst hu
          obtain ⟨b', hb', hversion, htext⟩ := hs.exists_basis ha
          refine current_of_fresh hsound hoptions hfresh ?_ ?_ (hs.known (by rw [hb']; rfl)) ?_
          · rw [hget, if_pos rfl]
          · rw [hassign, htexts, hs.text]
          · intro hrefused
            have hsent := hs.accepted hrefused
            rw [hb'] at hsent
            have hb : b'.text = s.textOf uri := by
              rw [hs.text, hsent] at htext
              exact Option.some.inj htext
            rw [hsent, Option.map_some, hb, hversion]
        · rename_i hu
          exact hs.of_eq hsound hoptions (hassign ▸ htexts) (by rw [hget, if_neg hu])
      · intro e he
        have hne : e.1 ≠ u := fun heq => hnew (List.mem_map.mpr ⟨e, he, heq⟩)
        rw [hget, if_neg hne]
        exact hstored e (List.mem_cons_of_mem _ he)

/-! ### Whole sessions -/

theorem Current.refresh (hs : Current files s uri sent st) (u text : String)
    (version : Option Int) :
    Current files (s.receive (.refresh u text version)).1 uri
      (sentBy uri sent (.message (.refresh u text version)))
      (s.standBy uri st (.message (.refresh u text version))) := by
  simp only [receive, sentBy, standBy]
  cases h : s.refresh u text version with
  | error r =>
    obtain ⟨hsound, hassign⟩ := hs.toSound.refresh_error h
    have hkept := retains_of_refused h
    have hget : r.session.documents.get? uri = s.documents.get? uri :=
      congrArg (List.lookup uri) hkept.results
    have htext : r.session.texts.lookup uri =
        if uri = u then some text else s.texts.lookup uri := by
      rw [hassign, Entries.lookup_assign]
    by_cases hu : uri = u
    · simp only [if_pos hu] at htext ⊢
      refine ⟨hsound, hget.trans hs.stored, hs.analysed, htext, fun _ => rfl,
        fun haccepted => Bool.noConfusion haccepted, ?_⟩
      exact fun hskipped b hb => (hs.options hskipped b hb).trans hkept.options.symm
    · simp only [if_neg hu] at htext ⊢
      exact hs.of_eq hsound hkept.options htext hget
  | ok r =>
    obtain ⟨s', pubs⟩ := r
    obtain ⟨hsound, hoptions, hassign, a, hfresh, hget⟩ := hs.toSound.refresh h
    have htext : s'.texts.lookup uri = if uri = u then some text else s.texts.lookup uri := by
      rw [hassign, Entries.lookup_assign]
    by_cases hu : uri = u
    · subst hu
      simp only [if_true] at htext ⊢
      have hcurrent : Current files s' uri (some (text, version))
          { ({} : Standing) with basis := some ⟨s.options, text, version⟩, skipped := false } :=
        current_of_fresh hsound hoptions hfresh (by rw [hget, if_pos rfl]) htext rfl fun _ => rfl
      exact hcurrent
    · simp only [if_neg hu] at htext ⊢
      exact hs.of_eq hsound hoptions htext (by rw [hget, if_neg hu])

theorem Current.close (hs : Current files s uri sent st) (u : String) :
    Current files (s.receive (.close u)).1 uri (sentBy uri sent (.message (.close u)))
      (s.standBy uri st (.message (.close u))) := by
  obtain ⟨hsound, htexts, hget⟩ := hs.toSound.close u
  have htext : (s.receive (.close u)).1.texts.lookup uri =
      if uri = u then none else s.texts.lookup uri := by
    rw [htexts, Entries.lookup_filter_ne]
  have hget := hget uri
  simp only [sentBy, standBy]
  split
  · rename_i hu
    rw [if_pos hu] at htext hget
    exact current_of_none hsound hget htext
  · rename_i hu
    rw [if_neg hu] at htext hget
    have hoptions : (s.receive (.close u)).1.options = s.options := by
      obtain ⟨included, hclose⟩ := receive_close s u
      rw [hclose]
    exact hs.of_eq hsound hoptions htext hget

theorem Sound.reset (hs : Sound files s) (h : s.Reset s') : Sound files s' :=
  ⟨h.files.trans hs.unchanged, h.documents ▸ hs.cache, h.documents ▸ hs.nodup⟩

/-- New settings are applied to all that is stored, unless a document is refused. -/
theorem Current.reconfigure (hs : Current files s uri sent st) (settings : Value) :
    Current files (s.reconfigure settings).1 uri sent
      (s.standBy uri st (.message (.reconfigure settings))) := by
  simp only [Session.reconfigure, standBy]
  cases hconfigure : s.configure settings with
  | error e => exact hs
  | ok s' =>
    have hreset := reset_configure hconfigure
    have hs' : Current files s' uri sent { st with skipped := st.basis.isSome } := by
      refine ⟨hs.toSound.reset hreset, hreset.documents ▸ hs.stored, hs.analysed,
        hreset.texts ▸ hs.text, hs.known, hs.accepted, ?_⟩
      intro hskipped b hb
      rw [Option.mem_def.mp hb] at hskipped
      cases hskipped
    refine hs'.refreshAll _ hs'.nodup ?_
    exact fun e he => Entries.lookup_of_mem hs'.nodup he

theorem options_enterRoot {root : Option String} (h : s.enterRoot root = .ok s') :
    s'.options = s.options := by
  unfold enterRoot at h
  split at h
  · cases h
    rfl
  · split at h
    · cases h
      rfl
    · cases h

/-- New settings alone may leave an analysis behind that was made with the old ones, but not before
there is one. -/
theorem Current.start (hs : Current files s uri none st) (root : Option String)
    (folders : List String) (settings : Value) :
    Current files (s.start root folders settings).1 uri none st := by
  have hreset := reset_start s root folders settings
  have hnone : st.basis = none := by
    by_contra hsome
    exact absurd (hs.known (Option.isSome_iff_ne_none.mpr hsome)) (by simp)
  refine ⟨hs.toSound.reset hreset, hreset.documents ▸ hs.stored, hs.analysed,
    hreset.texts ▸ hs.text, hs.known, hs.accepted, ?_⟩
  intro _ b hb
  rw [hnone] at hb
  cases hb

theorem Current.serve (hs : Current files s uri sent st) {t : Step}
    (hfiles : t.changesFiles = false) (hstart : t.isStart = true → sent = none) :
    Current files (s.serve t).1 uri (sentBy uri sent t) (s.standBy uri st t) := by
  cases t with
  | request r => exact hs
  | message m =>
    cases m with
    | start root folders settings =>
      obtain rfl := hstart rfl
      exact hs.start root folders settings
    | reconfigure settings => exact hs.reconfigure settings
    | refresh u text version => exact hs.refresh u text version
    | close u => exact hs.close u
    | files tree => cases hfiles

/-- Where nothing has been sent, nothing has been after steps that send nothing. -/
theorem sentBy_none {t : Step} (h : t.sendsText = false) : sentBy uri none t = none := by
  unfold sentBy
  split
  · cases h
  · split <;> rfl
  · rfl

theorem current_after (steps : List Step) (hs : Current files s uri sent st)
    (hfiles : ∀ t ∈ steps, t.changesFiles = false)
    (hstart : steps.Pairwise fun t u => t.sendsText = true → u.isStart = false)
    (hsent : sent = none ∨ ∀ t ∈ steps, t.isStart = false) :
    Current files (steps.foldl (fun s t => (s.serve t).1) s) uri (steps.foldl (sentBy uri) sent)
      (standAfter uri s st steps) := by
  induction steps generalizing s sent st with
  | nil => exact hs
  | cons t steps ih =>
    obtain ⟨hlater, hrest⟩ := List.pairwise_cons.mp hstart
    refine ih (hs.serve (hfiles t (by simp)) fun ht => ?_)
      (fun u hu => hfiles u (List.mem_cons_of_mem _ hu)) hrest ?_
    · refine hsent.resolve_right fun hno => ?_
      rw [hno t (by simp)] at ht
      cases ht
    · rcases hsent with rfl | hno
      · cases ht : t.sendsText with
        | false => exact .inl (sentBy_none ht)
        | true => exact .inr fun u hu => hlater u hu ht
      · exact .inr fun u hu => hno u (List.mem_cons_of_mem _ hu)

theorem isReadable_eq_false {settings : Value} (hempty : settings.isEmpty = false)
    (hobject : ∀ fields, settings ≠ .object fields) : Settings.isReadable settings = false := by
  cases settings with
  | object fields => exact absurd rfl (hobject fields)
  | _ => exact hempty

/-- Settings that are empty count as an object without keys. -/
theorem configure_of_isEmpty {settings : Value} (hempty : settings.isEmpty = true) (s : Session) :
    s.configure settings = s.configure (.object []) := by
  unfold configure Settings.toOptions
  rw [if_pos hempty]
  rfl

/-- In a session that is started before the first text is sent, over files that stay as they are,
each open document is stored as a new analyser with an empty cache analyses what its analysis was
made from. That is what was sent for it last, unless that was refused, with the present options,
unless the document was skipped when they were set because a document was refused. Settings that
are no object are taken for an object without keys if they are empty. Otherwise they are ignored:
they change neither the options nor what is stored. -/
theorem stored_eq_fresh (files : FileTree) (steps : List Step)
    (hfiles : ∀ t ∈ steps, t.changesFiles = false)
    (hstart : steps.Pairwise fun t u => t.sendsText = true → u.isStart = false) :
    let s := afterSteps files steps
    (∀ uri, let st := standing files uri steps
      (s.documents.get? uri =
        st.basis.bind fun b => Analysis.fresh? files b.options uri b.text b.version) ∧
      (s.documents.contains uri = st.basis.isSome) ∧
      (st.refused = false → st.skipped = false → s.documents.get? uri =
        (lastSent uri steps).bind fun sent =>
          Analysis.fresh? files s.options uri sent.1 sent.2)) ∧
    ∀ settings : Value, (∀ fields, settings ≠ .object fields) →
      (settings.isEmpty = true → s.reconfigure settings = s.reconfigure (.object [])) ∧
      (settings.isEmpty = false → s.reconfigure settings = (s, [], none) ∧
        ∀ root folders, (s.start root folders settings).1.options = s.options ∧
          (s.start root folders settings).1.documents = s.documents) := by
  intro s
  refine ⟨?_, ?_⟩
  · intro uri st
    have hfirst : Current files { files } uri none {} :=
      current_of_none ⟨rfl, IncludeCache.faithful_empty files, List.nodup_nil⟩ rfl rfl
    have hs : Current files s uri (lastSent uri steps) st :=
      current_after steps hfirst hfiles hstart (.inl rfl)
    refine ⟨hs.stored, hs.contains_eq, fun hrefused hskipped => ?_⟩
    rw [hs.stored, hs.accepted hrefused]
    cases hb : st.basis with
    | none => rfl
    | some b =>
      rw [← hs.options hskipped b hb]
      rfl
  intro settings hobject
  constructor
  · intro hempty
    rw [Session.reconfigure, configure_of_isEmpty hempty]
    rfl
  · intro hempty
    have hunreadable := isReadable_eq_false hempty hobject
    constructor
    · rw [Session.reconfigure, configure_of_not_isReadable hunreadable]
    · intro root folders
      refine ⟨?_, (reset_start s root folders settings).documents⟩
      cases hroot : s.enterRoot (rootUri root folders) with
      | error e => simp only [Session.start, hroot]
      | ok s' =>
        rw [start_of_not_isReadable hunreadable hroot]
        exact options_enterRoot hroot

/-- Two documents include one file; the settings define a macro that the file defines as well; one
document is changed and the other closed. -/
theorem stored_eq_fresh_shared_include :
    let files : FileTree :=
      { entries := [(Path.ofString "/ws/u", { content := .text "#define K 1" })]
        cwd := Path.ofString "/ws" }
    let steps : List Step :=
      [.message (.start (some "file:///ws") [] (.object [("includeMode", .string "workspace")])),
        .message (.refresh "file:///ws/a" "#include u" (some 1)),
        .message (.refresh "file:///ws/b" "#include u" (some 1)),
        .request (.completion "file:///ws/a" 0 0),
        .message (.reconfigure (.object [("predefinedMacros", .list [.string "K=2"])])),
        .message (.refresh "file:///ws/a" "#include u\n@" (some 2)),
        .message (.reconfigure (.string "K=3")),
        .message (.close "file:///ws/b")]
    let s := afterSteps files steps
    (∀ t ∈ steps, t.changesFiles = false) ∧
    (steps.Pairwise fun t u => t.sendsText = true → u.isStart = false) ∧
    s.options.predefined = [("K", "2")] ∧ s.documents.get? "file:///ws/b" = none ∧
    s.documents.get? "file:///ws/a" =
      Analysis.fresh? files s.options "file:///ws/a" "#include u\n@" (some 2) ∧
    (s.documents.get? "file:///ws/a").isSome = true := by
  intro files steps s
  have hfiles : ∀ t ∈ steps, t.changesFiles = false := by decide
  have hstart : steps.Pairwise fun t u => t.sendsText = true → u.isStart = false := by decide
  have hstored := fun uri => ((stored_eq_fresh files steps hfiles hstart).1 uri).2.2
  obtain ⟨hoptions, hopen, hrefused, hskipped, hrefused', hskipped'⟩ :
      s.options.predefined = [("K", "2")] ∧
      (s.documents.get? "file:///ws/a").isSome = true ∧
      (standing files "file:///ws/a" steps).refused = false ∧
      (standing files "file:///ws/a" steps).skipped = false ∧
      (standing files "file:///ws/b" steps).refused = false ∧
      (standing files "file:///ws/b" steps).skipped = false := by decide +kernel
  refine ⟨hfiles, hstart, hoptions, ?_, ?_, hopen⟩
  · rw [hstored _ hrefused' hskipped', show lastSent "file:///ws/b" steps = none by decide]
    rfl
  · rw [hstored _ hrefused hskipped,
      show lastSent "file:///ws/a" steps = some ("#include u\n@", some 2) by decide]
    rfl

/-- A document includes a file by the name of a macro, and new settings make that the name of a link
to itself. The document is refused, and the next one keeps an analysis without the macro. -/
theorem stored_ne_fresh_behind_refused :
    let files : FileTree :=
      { entries := [(Path.ofString "/ws/l", { statError := some .linkLoop })]
        cwd := Path.ofString "/ws" }
    let steps : List Step :=
      [.message (.refresh "file:///ws/a" "#include M" (some 1)),
        .message (.refresh "file:///ws/b" "M" (some 1)),
        .message (.reconfigure (.object [("predefinedMacros", .object [("M", .string "l")])]))]
    let s := afterSteps files steps
    s.options.predefined = [("M", "l")] ∧ lastSent "file:///ws/b" steps = some ("M", some 1) ∧
    s.documents.get? "file:///ws/b" ≠
      Analysis.fresh? files s.options "file:///ws/b" "M" (some 1) := by
  intro files steps s
  obtain ⟨hoptions, hold, hnew⟩ : s.options.predefined = [("M", "l")] ∧
      (s.documents.get? "file:///ws/b").map (fun a => a.macros.contains "M") = some false ∧
      (Analysis.fresh? files s.options "file:///ws/b" "M" (some 1)).map
        (fun a => a.macros.contains "M") = some true := by decide +kernel
  refine ⟨hoptions, by decide, ?_⟩
  intro heq
  have hmacros := congrArg (Option.map fun a => a.macros.contains "M") heq
  rw [hold, hnew] at hmacros
  cases hmacros

end Session

end Pearl
