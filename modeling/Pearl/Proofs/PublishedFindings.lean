import Pearl.Proofs.IncludeChain
import Pearl.Session

namespace Pearl.Session

/-! ### Whole sessions -/

/-- What may happen in a session: the messages of the editor, and changes of the file system. -/
inductive Message where
  | start (root : Option String) (folders : List String) (settings : Value)
  | reconfigure (settings : Value)
  | refresh (uri text : String) (version : Option Int)
  | close (uri : String)
  | files (tree : FileTree)

/-- The session after a message, and what it sends to the editor. For a message that is refused it
is sent nothing, or nothing more. -/
def receive (s : Session) : Message → Session × List Publication
  | .start root folders settings => ((s.start root folders settings).1, [])
  | .reconfigure settings => ((s.reconfigure settings).1, (s.reconfigure settings).2.1)
  | .refresh uri text version =>
    match s.refresh uri text version with
    | .error r => (r.session, [])
    | .ok done => done
  | .close uri =>
    match s.close uri with
    | .error r => (r.session, [])
    | .ok done => done
  | .files tree => ({ s with files := tree }, [])

/-- The findings that an editor shows in a document: those that were sent last. -/
def shown (log : List Publication) (uri : String) : Option (List Diagnostic) :=
  ((log.filter (·.uri = uri)).getLast?).map (·.diagnostics)

/-- The documents that have been overruled, after `author` was analysed or closed: it has cleared
those in which its findings were published before, and the publication for itself is its own. -/
def overrule (s : Session) (author : String) (overruled : List String) : List String :=
  (overruled ++ s.lastIncluded author).filter (· ≠ author)

/-- The documents that have been overruled, after documents were analysed again, up to one that was
refused. -/
def overruleAll (s : Session) (overruled : List String) : List (String × Analysis) → List String
  | [] => overruled
  | (uri, a) :: rest =>
    match s.refresh uri (s.textOf uri) a.version with
    | .error _ => overruled
    | .ok (s', _) => s'.overruleAll (s.overrule uri overruled) rest

/-- The documents that have been overruled, after a message: another document has cleared their
findings since they were analysed themselves. -/
def overruledBy (s : Session) (overruled : List String) : Message → List String
  | .start .. | .files _ => overruled
  | .reconfigure settings =>
    match s.configure settings with
    | .error _ => overruled
    | .ok s => s.overruleAll overruled s.documents.results
  | .refresh uri text version =>
    match s.refresh uri text version with
    | .error _ => overruled
    | .ok _ => s.overrule uri overruled
  | .close uri =>
    match s.close uri with
    | .error _ => overruled
    | .ok _ => s.overrule uri overruled

/-- A session with all that was sent to the editor, and the documents that have been overruled. -/
structure History where
  session : Session
  log : List Publication := []
  overruled : List String := []

def History.next (h : History) (m : Message) : History :=
  ⟨(h.session.receive m).1, h.log ++ (h.session.receive m).2,
    h.session.overruledBy h.overruled m⟩

def History.ofMessages (files : FileTree) (ms : List Message) : History :=
  ms.foldl History.next { session := { files } }

/-! ### What is shown -/

theorem shown_append (log more : List Publication) (uri : String) :
    shown (log ++ more) uri = (shown more uri).or (shown log uri) := by
  simp only [shown, List.filter_append, List.getLast?_append, Option.map_or]

theorem shown_of_not_mem {log : List Publication} {uri : String} (h : uri ∉ log.map (·.uri)) :
    shown log uri = none := by
  have hnil : log.filter (·.uri = uri) = [] := by
    rw [List.filter_eq_nil_iff]
    intro p hp hu
    exact h (List.mem_map.mpr ⟨p, hp, of_decide_eq_true hu⟩)
  rw [shown, hnil]
  rfl

/-- Documents that are sent findings show these, and the others what they showed before. -/
theorem shown_each (log : List Publication) (uris : List String)
    (findings : String → List Diagnostic) (uri : String) :
    shown (log ++ uris.map fun u => { uri := u, diagnostics := findings u }) uri =
      if uri ∈ uris then some (findings uri) else shown log uri := by
  let sent := uris.map fun u => ({ uri := u, diagnostics := findings u } : Publication)
  rw [shown_append]
  split
  · rename_i h
    have hlast : ∀ p ∈ sent.filter (·.uri = uri), p.diagnostics = findings uri := by
      intro p hp
      obtain ⟨hp, hu⟩ := List.mem_filter.mp hp
      obtain ⟨u, -, rfl⟩ := List.mem_map.mp hp
      rw [← of_decide_eq_true hu]
    have hne : sent.filter (·.uri = uri) ≠ [] :=
      List.ne_nil_of_mem (List.mem_filter.mpr
        ⟨List.mem_map.mpr ⟨uri, h, rfl⟩, decide_eq_true rfl⟩)
    rw [shown, List.getLast?_eq_some_getLast hne, Option.map_some,
      hlast _ (List.getLast_mem hne)]
    rfl
  · rename_i h
    rw [shown_of_not_mem, Option.none_or]
    simpa using h

/-- Documents that are cleared show nothing, and the others what they showed before. -/
theorem shown_clear (log : List Publication) (uris : List String) (uri : String) :
    shown (log ++ uris.map ({ uri := · })) uri =
      if uri ∈ uris then some [] else shown log uri :=
  shown_each log uris (fun _ => []) uri

theorem mem_inOrder {uri : String} {uris : List String} : uri ∈ inOrder uris ↔ uri ∈ uris := by
  rw [inOrder, (List.mergeSort_perm _ _).mem_iff, List.mem_eraseDups]

/-! ### One document at a time -/

/-- No document is among those it includes; and every open document shows its own findings, unless
it has been overruled: then it shows none. -/
structure Consistent (s : Session) (log : List Publication) (overruled : List String) :
    Prop where
  irreflexive : ∀ uri, uri ∉ s.lastIncluded uri
  shows : ∀ uri a, s.documents.get? uri = some a →
    shown log uri = some (if uri ∈ overruled then [] else findingsIn a uri)

variable {s s' : Session} {log pubs : List Publication} {overruled : List String}

section Analyze

variable {uri text : String} {version : Option Int} {a : Analysis} {r : Refusal}

/-- A text that is analysed has been read to its end. -/
theorem analyze_eq_ok (h : s.analyze uri text version = .ok (s', a)) :
    ∃ src, Scan.Source.ofUri s.files uri = .ok src ∧
      let tried := Analysis.attempt s.files s.options s.documents.cache src text version
      tried.result = .ok a ∧
      s' = { s with
        texts := Entries.assign uri text s.texts
        documents := DocumentStore.put { s.documents with cache := tried.cache } uri a } := by
  unfold analyze at h
  dsimp only at h
  split at h
  · cases h
  · rename_i src hsrc
    split at h
    · cases h
    · rename_i b hresult
      cases h
      exact ⟨src, hsrc, hresult, rfl⟩

/-- A text is refused for its URI, or after it has been read in part. -/
theorem analyze_eq_error (h : s.analyze uri text version = .error r) :
    ∃ e cache, r = ⟨.document e, { s with
        texts := Entries.assign uri text s.texts
        documents := { s.documents with cache } }⟩ ∧
      (Scan.Source.ofUri s.files uri = .error e ∧ cache = s.documents.cache ∨
        ∃ src, Scan.Source.ofUri s.files uri = .ok src ∧
          let tried := Analysis.attempt s.files s.options s.documents.cache src text version
          tried.result = .error e ∧ cache = tried.cache) := by
  unfold analyze at h
  dsimp only at h
  split at h
  · rename_i e hsrc
    cases h
    exact ⟨e, s.documents.cache, rfl, .inl ⟨hsrc, rfl⟩⟩
  · rename_i src hsrc
    split at h
    · rename_i e hresult
      cases h
      exact ⟨e, _, rfl, .inr ⟨src, hsrc, hresult, rfl⟩⟩
    · cases h

theorem refresh_eq_ok (h : s.refresh uri text version = .ok (s', pubs)) :
    ∃ middle a, s.analyze uri text version = .ok (middle, a) ∧ middle.publish a = (s', pubs) := by
  unfold refresh at h
  split at h
  · cases h
  · rename_i middle a hanalyze
    cases h
    exact ⟨middle, a, hanalyze, rfl⟩

theorem refresh_eq_error (h : s.refresh uri text version = .error r) :
    s.analyze uri text version = .error r := by
  unfold refresh at h
  split at h
  · rename_i r' hanalyze
    cases h
    exact hanalyze
  · cases h

/-- An analysis is kept for its document alone. -/
theorem analyze_cases (h : s.analyze uri text version = .ok (s', a)) :
    a.uri = uri ∧ s'.included = s.included ∧
      ∀ other, s'.documents.get? other =
        if other = uri then some a else s.documents.get? other := by
  obtain ⟨src, hsrc, hresult, rfl⟩ := analyze_eq_ok h
  obtain rfl := Analysis.eq_run_of_attempt hresult
  exact ⟨(Scan.bars_ofUri hsrc).1, rfl, DocumentStore.get?_put _ uri _⟩

end Analyze

/-- What analysing a document comes to: its analysis is kept, and with it the documents in which
its findings are published; those in which they were published before are cleared. -/
theorem refresh_cases {uri text : String} {version : Option Int}
    (h : s.refresh uri text version = .ok (s', pubs)) :
    ∃ a : Analysis, a.uri = uri ∧
      (∀ other, s'.documents.get? other = if other = uri then some a else s.documents.get? other) ∧
      (∀ other, s'.lastIncluded other =
        if other = uri then s'.includedBy a else s.lastIncluded other) ∧
      pubs = ({ uri, version := a.version, diagnostics := findingsIn a uri } ::
        (s'.includedBy a).map fun uri => { uri, diagnostics := findingsIn a uri }) ++
        (inOrder ((s.lastIncluded uri).filter fun u => !(s'.includedBy a).contains u)).map
          ({ uri := · }) := by
  obtain ⟨middle, a, hanalyze, hpublish⟩ := refresh_eq_ok h
  obtain ⟨rfl, hincluded, hdocuments⟩ := analyze_cases hanalyze
  have hlast : middle.lastIncluded = s.lastIncluded := by
    funext other
    rw [lastIncluded, hincluded, lastIncluded]
  cases hpublish
  refine ⟨a, rfl, hdocuments, ?_, ?_⟩
  · intro other
    simp only [lastIncluded, Entries.lookup_assign]
    split
    · rfl
    · rw [hincluded]
  · rw [hlast]
    rfl

/-- A text that is refused is the last one of its document all the same, and may have been read in
part; everything else stays. -/
structure Retains (s s' : Session) : Prop where
  options : s'.options = s.options
  results : s'.documents.results = s.documents.results
  included : s'.included = s.included

theorem retains_of_refused {uri text : String} {version : Option Int} {r : Refusal}
    (h : s.refresh uri text version = .error r) : s.Retains r.session := by
  obtain ⟨e, cache, rfl, -⟩ := analyze_eq_error (refresh_eq_error h)
  exact ⟨rfl, rfl, rfl⟩

theorem close_cases {uri : String} (h : s.close uri = .ok (s', pubs)) :
    (∀ other, s'.documents.get? other = if other = uri then none else s.documents.get? other) ∧
      (∀ other, s'.lastIncluded other = if other = uri then [] else s.lastIncluded other) ∧
      pubs = (inOrder (s.lastIncluded uri) ++ [uri]).map ({ uri := · }) := by
  unfold close at h
  dsimp only at h
  split at h
  · cases h
  · rename_i documents hforget
    cases h
    refine ⟨?_, ?_, ?_⟩
    · intro other
      have hget := s.documents.get?_forget s.files uri other
      rwa [hforget] at hget
    · intro other
      simp only [lastIncluded, Entries.lookup_filter_ne]
      split <;> rfl
    · rw [List.map_append]
      rfl

/-- A document is forgotten even if it cannot be closed. -/
theorem close_eq_error {uri : String} {r : Refusal} (h : s.close uri = .error r) :
    (∀ other, r.session.documents.get? other =
        if other = uri then none else s.documents.get? other) ∧
      r.session.included = s.included := by
  unfold close at h
  dsimp only at h
  split at h
  · rename_i documents e hforget
    cases h
    refine ⟨?_, rfl⟩
    intro other
    have hget := s.documents.get?_forget s.files uri other
    rwa [hforget] at hget
  · cases h

theorem mem_includedBy {a : Analysis} {uri : String} (h : uri ∈ s.includedBy a) :
    uri ≠ a.uri ∧ s.documents.get? uri = none := by
  have hm := (List.mem_filter.mp (mem_inOrder.mp h)).2
  simpa [DocumentStore.contains] using hm

theorem mem_overrule {author uri : String} :
    uri ∈ s.overrule author overruled ↔
      uri ≠ author ∧ (uri ∈ overruled ∨ uri ∈ s.lastIncluded author) := by
  simp only [overrule, List.mem_filter, List.mem_append, decide_eq_true_eq]
  exact and_comm

/-- Analysing a document leaves the others to themselves, except for those it had findings in. -/
theorem Consistent.refresh (hs : Consistent s log overruled) {uri text : String}
    {version : Option Int} (h : s.refresh uri text version = .ok (s', pubs)) :
    Consistent s' (log ++ pubs) (s.overrule uri overruled) := by
  obtain ⟨a, ha, hdocuments, hincluded, rfl⟩ := refresh_cases h
  refine ⟨?_, ?_⟩
  · intro other hmem
    rw [hincluded] at hmem
    split at hmem
    · rename_i ho
      exact (mem_includedBy hmem).1 (ho.trans ha.symm)
    · exact hs.irreflexive other hmem
  · intro other b hb
    have hopen : other ∉ s'.includedBy a := by
      intro hmem
      rw [(mem_includedBy hmem).2] at hb
      cases hb
    have hstale : other ∈ inOrder ((s.lastIncluded uri).filter fun u =>
        !(s'.includedBy a).contains u) ↔ other ∈ s.lastIncluded uri := by
      rw [mem_inOrder, List.mem_filter]
      simp [hopen]
    have hsent : shown (({ uri, version := a.version, diagnostics := findingsIn a uri } ::
        (s'.includedBy a).map fun uri => { uri, diagnostics := findingsIn a uri })) other =
        if other = uri then some (findingsIn a uri) else none := by
      have hnone : shown ((s'.includedBy a).map fun uri =>
          { uri, diagnostics := findingsIn a uri }) other = none :=
        shown_of_not_mem (by simpa using hopen)
      rw [← List.singleton_append, shown_append, hnone, Option.none_or]
      by_cases ho : other = uri
      · simp [shown, ho]
      · simp [shown, ho, Ne.symm ho]
    rw [← List.append_assoc, shown_clear, if_congr hstale rfl rfl, shown_append, hsent]
    simp only [mem_overrule]
    rw [hdocuments] at hb
    by_cases ho : other = uri
    · subst ho
      rw [if_pos rfl] at hb
      cases hb
      simp [hs.irreflexive other]
    · rw [if_neg ho] at hb
      simp only [ho, if_false, Option.none_or, hs.shows other b hb, ne_eq, not_false_eq_true,
        true_and]
      by_cases hm : other ∈ s.lastIncluded uri
      · simp [hm]
      · simp [hm]

theorem Consistent.close (hs : Consistent s log overruled) {uri : String}
    (h : s.close uri = .ok (s', pubs)) :
    Consistent s' (log ++ pubs) (s.overrule uri overruled) := by
  obtain ⟨hdocuments, hincluded, rfl⟩ := close_cases h
  refine ⟨?_, ?_⟩
  · intro other hmem
    rw [hincluded] at hmem
    split at hmem
    · cases hmem
    · exact hs.irreflexive other hmem
  · intro other b hb
    rw [hdocuments] at hb
    have ho : other ≠ uri := by
      rintro rfl
      rw [if_pos rfl] at hb
      cases hb
    have hcleared : other ∈ inOrder (s.lastIncluded uri) ++ [uri] ↔
        other ∈ s.lastIncluded uri := by
      rw [List.mem_append, mem_inOrder]
      simp [ho]
    rw [if_neg ho] at hb
    rw [shown_clear, if_congr hcleared rfl rfl, hs.shows other b hb]
    simp only [mem_overrule, ho, ne_eq, not_false_eq_true, true_and]
    by_cases hm : other ∈ s.lastIncluded uri
    · simp [hm]
    · simp [hm]

/-- A document that is forgotten without being closed leaves the others as they are. -/
theorem Consistent.close_error (hs : Consistent s log overruled) {uri : String} {r : Refusal}
    (h : s.close uri = .error r) : Consistent r.session log overruled := by
  obtain ⟨hdocuments, hincluded⟩ := close_eq_error h
  refine ⟨?_, ?_⟩
  · intro other
    rw [lastIncluded, hincluded]
    exact hs.irreflexive other
  · intro other b hb
    rw [hdocuments] at hb
    split at hb
    · cases hb
    · exact hs.shows other b hb

/-! ### Many documents and many messages -/

/-- Texts, settings and files have no part in what is shown. -/
theorem Consistent.of_eq (hs : Consistent s log overruled)
    (hresults : s'.documents.results = s.documents.results) (hincluded : s'.included = s.included) :
    Consistent s' log overruled := by
  refine ⟨?_, ?_⟩
  · intro uri
    rw [lastIncluded, hincluded]
    exact hs.irreflexive uri
  · intro uri a ha
    rw [DocumentStore.get?, hresults] at ha
    exact hs.shows uri a ha

theorem Consistent.refreshAll (hs : Consistent s log overruled)
    (documents : List (String × Analysis)) :
    Consistent (s.refreshAll documents).1 (log ++ (s.refreshAll documents).2.1)
      (s.overruleAll overruled documents) := by
  induction documents generalizing s log overruled with
  | nil =>
    rw [Session.refreshAll, List.append_nil]
    exact hs
  | cons e rest ih =>
    obtain ⟨uri, a⟩ := e
    rw [Session.refreshAll, overruleAll]
    cases h : s.refresh uri (s.textOf uri) a.version with
    | error r =>
      have hkept := retains_of_refused h
      rw [List.append_nil]
      exact hs.of_eq hkept.results hkept.included
    | ok r =>
      have hnext := ih (hs.refresh h)
      rw [List.append_assoc] at hnext
      exact hnext

/-- The sessions differ at most in their settings. -/
structure Reset (s s' : Session) : Prop where
  files : s'.files = s.files
  texts : s'.texts = s.texts
  documents : s'.documents = s.documents
  included : s'.included = s.included

theorem Reset.trans {s'' : Session} (h : s.Reset s') (h' : s'.Reset s'') : s.Reset s'' :=
  ⟨h'.files.trans h.files, h'.texts.trans h.texts, h'.documents.trans h.documents,
    h'.included.trans h.included⟩

theorem reset_configure {settings : Value} (h : s.configure settings = .ok s') : s.Reset s' := by
  unfold configure at h
  split at h
  · cases h
  · cases h
    exact ⟨rfl, rfl, rfl, rfl⟩

theorem reset_enterRoot {root : Option String} (h : s.enterRoot root = .ok s') : s.Reset s' := by
  unfold enterRoot at h
  split at h
  · cases h
    exact ⟨rfl, rfl, rfl, rfl⟩
  · split at h
    · cases h
      exact ⟨rfl, rfl, rfl, rfl⟩
    · cases h

theorem reset_start (s : Session) (root : Option String) (folders : List String)
    (settings : Value) : s.Reset (s.start root folders settings).1 := by
  unfold start
  split
  · exact ⟨rfl, rfl, rfl, rfl⟩
  · rename_i s' hroot
    split
    · exact reset_enterRoot hroot
    · rename_i s'' hconfigure
      exact (reset_enterRoot hroot).trans (reset_configure hconfigure)

theorem Consistent.receive (hs : Consistent s log overruled) (m : Message) :
    Consistent (s.receive m).1 (log ++ (s.receive m).2) (s.overruledBy overruled m) := by
  cases m with
  | start root folders settings =>
    have hreset := reset_start s root folders settings
    simp only [Session.receive, List.append_nil]
    exact hs.of_eq (congrArg _ hreset.documents) hreset.included
  | files tree =>
    simp only [Session.receive, List.append_nil]
    exact hs.of_eq rfl rfl
  | reconfigure settings =>
    simp only [Session.receive, reconfigure, overruledBy]
    cases h : s.configure settings with
    | error e => simpa using hs
    | ok s' =>
      have hreset := reset_configure h
      exact (hs.of_eq (congrArg _ hreset.documents) hreset.included).refreshAll _
  | refresh uri text version =>
    simp only [Session.receive, overruledBy]
    cases h : s.refresh uri text version with
    | error r =>
      have hkept := retains_of_refused h
      rw [List.append_nil]
      exact hs.of_eq hkept.results hkept.included
    | ok r => exact hs.refresh h
  | close uri =>
    simp only [Session.receive, overruledBy]
    cases h : s.close uri with
    | error r =>
      rw [List.append_nil]
      exact hs.close_error h
    | ok r => exact hs.close h

theorem History.consistent_ofMessages (files : FileTree) (ms : List Message) :
    let h := History.ofMessages files ms
    Consistent h.session h.log h.overruled := by
  have hnext : ∀ (ms : List Message) (h : History),
      Consistent h.session h.log h.overruled →
      Consistent (ms.foldl next h).session (ms.foldl next h).log (ms.foldl next h).overruled := by
    intro ms
    induction ms with
    | nil => exact fun h hh => hh
    | cons m ms ih => exact fun h hh => ih (h.next m) (hh.receive m)
  refine hnext ms _ ⟨?_, ?_⟩
  · intro uri h
    cases h
  · intro uri a h
    cases h

/-- In every session an open document shows its own findings, or none if it has been overruled. So
it shows what it should exactly if it has no findings or has not been overruled. -/
theorem shown_eq_findings_iff (files : FileTree) (ms : List Message) (uri : String) (a : Analysis)
    (ha : (History.ofMessages files ms).session.documents.get? uri = some a) :
    let h := History.ofMessages files ms
    shown h.log uri = some (if uri ∈ h.overruled then [] else findingsIn a uri) ∧
    (shown h.log uri = some (findingsIn a uri) ↔ findingsIn a uri = [] ∨ uri ∉ h.overruled) := by
  intro h
  have hshown := (History.consistent_ofMessages files ms).shows uri a ha
  refine ⟨hshown, ?_⟩
  rw [hshown]
  by_cases hmem : uri ∈ h.overruled
  · rw [if_pos hmem, Option.some.injEq]
    constructor
    · exact fun hnil => Or.inl hnil.symm
    · exact fun hor => (hor.resolve_right fun hn => hn hmem).symm
  · rw [if_neg hmem]
    exact iff_of_true rfl (Or.inr hmem)

/-- A file with an illegal character is included by a document and opened itself. When the other
document is closed, it is overruled, although it is still open. -/
theorem shown_eq_findings_iff_after_close :
    let files : FileTree :=
      { entries := [(Path.ofString "/ws/b", { content := .text "@" })], cwd := Path.ofString "/ws" }
    let h := History.ofMessages files
      [.refresh "file:///ws/a" "#include b" (some 1), .refresh "file:///ws/b" "@" (some 1),
        .close "file:///ws/a"]
    "file:///ws/b" ∈ h.overruled ∧
    ∃ a, h.session.documents.get? "file:///ws/b" = some a ∧
      (shown h.log "file:///ws/b" = some (findingsIn a "file:///ws/b") ↔
        findingsIn a "file:///ws/b" = [] ∨ "file:///ws/b" ∉ h.overruled) := by
  intro files h
  have hmem : "file:///ws/b" ∈ h.overruled := by decide +kernel
  have hopen : (h.session.documents.get? "file:///ws/b").isSome = true := by decide +kernel
  obtain ⟨a, ha⟩ := Option.isSome_iff_exists.mp hopen
  exact ⟨hmem, a, ha, (shown_eq_findings_iff _ _ "file:///ws/b" a ha).2⟩

/-- When the other document no longer includes the file, the file shows nothing, although it is
open and its analysis has a finding. -/
theorem shown_ne_findings_of_open :
    let files : FileTree :=
      { entries := [(Path.ofString "/ws/b", { content := .text "@" })], cwd := Path.ofString "/ws" }
    let h := History.ofMessages files
      [.refresh "file:///ws/a" "#include b" (some 1), .refresh "file:///ws/b" "@" (some 1),
        .refresh "file:///ws/a" "" (some 2)]
    ∃ a, h.session.documents.get? "file:///ws/b" = some a ∧
      shown h.log "file:///ws/b" = some [] ∧
      shown h.log "file:///ws/b" ≠ some (findingsIn a "file:///ws/b") := by
  intro files h
  have hopen : (h.session.documents.get? "file:///ws/b").any
      (fun a => !(findingsIn a "file:///ws/b").isEmpty) = true := by decide +kernel
  have hshown : shown h.log "file:///ws/b" = some [] := by decide +kernel
  obtain ⟨a, ha, hfindings⟩ := (Option.any_eq_true ..).mp hopen
  refine ⟨a, ha, hshown, ?_⟩
  rw [hshown]
  intro he
  rw [← Option.some.inj he] at hfindings
  cases hfindings

end Pearl.Session
