import Mathlib.Data.List.Induction
import Pearl.Proofs.PublishedFindings

namespace Pearl.Session

/-! ### Findings that are withdrawn -/

/-- The documents whose findings have been withdrawn, after `author` was analysed in `s`, which led
to `s'`: it withdraws its findings from documents in which it has none any more, and publishes
those it has, in itself and in others. -/
def withdraw (s s' : Session) (author : String) (withdrawn : List String) : List String :=
  (withdrawn ++ s.lastIncluded author).filter fun uri =>
    uri ≠ author && !(s'.lastIncluded author).contains uri

/-- The documents whose findings have been withdrawn, after documents were analysed again, up to one
that was refused. -/
def withdrawAll (s : Session) (withdrawn : List String) : List (String × Analysis) → List String
  | [] => withdrawn
  | (uri, a) :: rest =>
    match s.refresh uri (s.textOf uri) a.version with
    | .error _ => withdrawn
    | .ok (s', _) => s'.withdrawAll (s.withdraw s' uri withdrawn) rest

/-- The documents whose findings have been withdrawn, after a message: those who published them
have been closed or have none in them any more, and nobody has published others since. -/
def withdrawnBy (s : Session) (withdrawn : List String) : Message → List String
  | .start .. | .files _ => withdrawn
  | .reconfigure settings =>
    match s.configure settings with
    | .error _ => withdrawn
    | .ok s => s.withdrawAll withdrawn s.documents.results
  | .refresh uri text version =>
    match s.refresh uri text version with
    | .error _ => withdrawn
    | .ok (s', _) => s.withdraw s' uri withdrawn
  | .close uri =>
    match s.close uri with
    | .error _ => withdrawn
    | .ok _ => uri :: (withdrawn ++ s.lastIncluded uri)

/-! ### Findings that are left behind -/

def showsFindings (log : List Publication) (uri : String) : Bool :=
  (shown log uri).any fun ds => !ds.isEmpty

/-- The documents that show findings of one that cannot be closed: itself, and those in which its
findings were published last. -/
def abandonedBy (s : Session) (log : List Publication) : Message → List String
  | .close uri =>
    match s.close uri with
    | .error _ => (uri :: s.lastIncluded uri).filter (showsFindings log)
    | .ok _ => []
  | _ => []

/-- Documents except for those that have been sent findings, or none, now. -/
def unpublished (uris : List String) (pubs : List Publication) : List String :=
  uris.filter fun uri => !(pubs.map (·.uri)).contains uri

/-- A history with the documents whose findings have been withdrawn, and those that were left behind
with findings: a document was forgotten without being closed, and nothing has been published for
them since. -/
structure Chronicle extends History where
  withdrawn : List String := []
  leftBehind : List String := []

namespace Chronicle

def next (c : Chronicle) (m : Message) : Chronicle :=
  ⟨c.toHistory.next m, c.session.withdrawnBy c.withdrawn m,
    unpublished (c.leftBehind ++ c.session.abandonedBy c.log m) (c.session.receive m).2⟩

def ofMessages (files : FileTree) (ms : List Message) : Chronicle :=
  ms.foldl next { session := { files } }

theorem ofMessages_concat (files : FileTree) (ms : List Message) (m : Message) :
    ofMessages files (ms ++ [m]) = (ofMessages files ms).next m := by
  simp [ofMessages]

end Chronicle

/-! ### One document at a time -/

variable {s s' : Session} {log pubs : List Publication} {left : List String}
variable {uri text : String} {version : Option Int}

theorem showsFindings_iff :
    showsFindings log uri = true ↔ ∃ ds, shown log uri = some ds ∧ ds ≠ [] := by
  simp [showsFindings, Option.any_eq_true]

theorem mem_unpublished {uris : List String} :
    uri ∈ unpublished uris pubs ↔ uri ∈ uris ∧ uri ∉ pubs.map (·.uri) := by
  simp [unpublished, List.mem_filter]

theorem unpublished_nil (uris : List String) : unpublished uris [] = uris :=
  List.filter_eq_self.mpr fun _ _ => rfl

theorem unpublished_append (uris : List String) (pubs more : List Publication) :
    unpublished uris (pubs ++ more) = unpublished (unpublished uris pubs) more := by
  rw [unpublished, unpublished, unpublished, List.filter_filter]
  refine List.filter_congr fun uri _ => ?_
  rw [List.map_append, List.contains_eq_any_beq, List.any_append, ← List.contains_eq_any_beq,
    ← List.contains_eq_any_beq, Bool.not_or, Bool.and_comm]

/-- A document that nothing is published for shows what it showed before. -/
theorem showsFindings_append (h : uri ∉ pubs.map (·.uri)) :
    showsFindings (log ++ pubs) uri = showsFindings log uri := by
  rw [showsFindings, showsFindings, shown_append, shown_of_not_mem h, Option.none_or]

theorem mem_includedBy_iff {a : Analysis} {other : String} :
    other ∈ s.includedBy a ↔
      findingsIn a other ≠ [] ∧ other ≠ a.uri ∧ s.documents.get? other = none := by
  have hfindings : findingsIn a other ≠ [] ↔ ∃ d ∈ a.diagnostics, target a d = other := by
    simp [findingsIn, List.filter_eq_nil_iff]
  rw [includedBy, mem_inOrder, hfindings]
  simp [DocumentStore.contains]

/-- Findings in another document are positioned there. -/
theorem exists_uri_eq_of_findingsIn {a : Analysis} {other : String} (hne : other ≠ a.uri)
    (h : findingsIn a other ≠ []) : ∃ d ∈ a.diagnostics, d.uri = other := by
  obtain ⟨d, hd⟩ := List.exists_mem_of_ne_nil _ h
  obtain ⟨hd, htarget⟩ := List.mem_filter.mp hd
  have htarget := of_decide_eq_true htarget
  refine ⟨d, hd, ?_⟩
  unfold target at htarget
  split at htarget
  · exact absurd htarget.symm hne
  · exact htarget

/-- What analysing a document comes to for the others: those in which it has findings are shown
these, and those in which it had findings before are cleared. -/
theorem refresh_others (h : s.refresh uri text version = .ok (s', pubs)) :
    ∃ a : Analysis, a.uri = uri ∧
      (∀ other, s'.documents.get? other = if other = uri then some a else s.documents.get? other) ∧
      (∀ other, s'.lastIncluded other =
        if other = uri then s'.includedBy a else s.lastIncluded other) ∧
      ∀ log other, other ≠ uri → shown (log ++ pubs) other =
        if other ∈ s'.lastIncluded uri then some (findingsIn a other)
        else if other ∈ s.lastIncluded uri then some [] else shown log other := by
  obtain ⟨a, ha, hdocuments, hincluded, rfl⟩ := refresh_cases h
  refine ⟨a, ha, hdocuments, hincluded, ?_⟩
  intro log other hother
  have hown : shown (log ++ [{ uri, version := a.version, diagnostics := findingsIn a uri }])
      other = shown log other := by
    rw [shown_append, shown_of_not_mem (by simpa using hother), Option.none_or]
  have hstale : other ∈ inOrder ((s.lastIncluded uri).filter fun u =>
      !(s'.includedBy a).contains u) ↔ other ∈ s.lastIncluded uri ∧ other ∉ s'.includedBy a := by
    rw [mem_inOrder, List.mem_filter]
    simp
  rw [hincluded uri, if_pos rfl, ← List.append_assoc, shown_clear, ← List.singleton_append,
    ← List.append_assoc, shown_each, hown, if_congr hstale rfl rfl]
  by_cases hnow : other ∈ s'.includedBy a
  · simp [hnow]
  · simp [hnow]

/-- Besides the document that is analysed, those are published for in which it has findings, or had
some before. -/
theorem not_mem_published (h : s.refresh uri text version = .ok (s', pubs)) {other : String}
    (hother : other ≠ uri) (hnow : other ∉ s'.lastIncluded uri)
    (hbefore : other ∉ s.lastIncluded uri) : other ∉ pubs.map (·.uri) := by
  obtain ⟨a, -, -, hincluded, rfl⟩ := refresh_cases h
  rw [hincluded, if_pos rfl] at hnow
  have hstale : other ∉ inOrder ((s.lastIncluded uri).filter fun u =>
      !(s'.includedBy a).contains u) := by
    rw [mem_inOrder, List.mem_filter]
    exact fun hmem => hbefore hmem.1
  simpa [hother, hnow] using hstale

/-- The findings of a closed document are those of an open one that has published them, or they were
left behind; and all that were left behind are still there. -/
structure Tidy (s : Session) (log : List Publication) (left : List String) : Prop where
  accounted : ∀ other, s.documents.get? other = none → showsFindings log other = true →
    other ∈ left ∨ ∃ author a, s.documents.get? author = some a ∧ a.uri = author ∧
      findingsIn a other ≠ [] ∧ other ≠ author ∧ other ∈ s.lastIncluded author
  left : ∀ other ∈ left, showsFindings log other = true

theorem Tidy.left_unpublished (hs : Tidy s log left) (pubs : List Publication) :
    ∀ other ∈ unpublished left pubs, showsFindings (log ++ pubs) other = true := by
  intro other hmem
  obtain ⟨hleft, hnot⟩ := mem_unpublished.mp hmem
  rw [showsFindings_append hnot]
  exact hs.left other hleft

theorem Tidy.refresh (hs : Tidy s log left) (h : s.refresh uri text version = .ok (s', pubs)) :
    Tidy s' (log ++ pubs) (unpublished left pubs) := by
  refine ⟨?_, hs.left_unpublished pubs⟩
  intro other hnone hshows
  obtain ⟨a, ha, hdocuments, hincluded, hshown⟩ := refresh_others h
  rw [hdocuments] at hnone
  split at hnone
  · cases hnone
  rename_i hne
  by_cases hnow : other ∈ s'.lastIncluded uri
  · have hmem := hnow
    rw [hincluded, if_pos rfl] at hmem
    refine .inr ⟨uri, a, ?_, ha, (mem_includedBy_iff.mp hmem).1, hne, hnow⟩
    rw [hdocuments, if_pos rfl]
  by_cases hbefore : other ∈ s.lastIncluded uri
  · rw [showsFindings, hshown log other hne, if_neg hnow, if_pos hbefore] at hshows
    cases hshows
  have hnot := not_mem_published h hne hnow hbefore
  rw [showsFindings_append hnot] at hshows
  refine (hs.accounted other hnone hshows).imp (fun hleft => mem_unpublished.mpr ⟨hleft, hnot⟩) ?_
  rintro ⟨author, b, hb, huri, hfindings, hself, hmem⟩
  have hauthor : author ≠ uri := fun he => hbefore (he ▸ hmem)
  refine ⟨author, b, ?_, huri, hfindings, hself, ?_⟩
  · rw [hdocuments, if_neg hauthor]
    exact hb
  · rw [hincluded, if_neg hauthor]
    exact hmem

theorem Tidy.close (hs : Tidy s log left) (h : s.close uri = .ok (s', pubs)) :
    Tidy s' (log ++ pubs) (unpublished left pubs) := by
  refine ⟨?_, hs.left_unpublished pubs⟩
  intro other hnone hshows
  obtain ⟨hdocuments, hincluded, rfl⟩ := close_cases h
  have hkept : other ≠ uri ∧ other ∉ s.lastIncluded uri := by
    rw [← not_or]
    intro hcleared
    have hmem : other ∈ inOrder (s.lastIncluded uri) ++ [uri] := by
      rwa [List.mem_append, mem_inOrder, List.mem_singleton, or_comm]
    rw [showsFindings, shown_clear, if_pos hmem] at hshows
    cases hshows
  have hnot : other ∉ ((inOrder (s.lastIncluded uri) ++ [uri]).map
      fun u => ({ uri := u } : Publication)).map (·.uri) := by
    simp [mem_inOrder, hkept]
  rw [hdocuments, if_neg hkept.1] at hnone
  rw [showsFindings_append hnot] at hshows
  refine (hs.accounted other hnone hshows).imp (fun hleft => mem_unpublished.mpr ⟨hleft, hnot⟩) ?_
  rintro ⟨author, a, ha, huri, hfindings, hself, hmem⟩
  have hauthor : author ≠ uri := fun he => hkept.2 (he ▸ hmem)
  refine ⟨author, a, ?_, huri, hfindings, hself, ?_⟩
  · rw [hdocuments, if_neg hauthor]
    exact ha
  · rw [hincluded, if_neg hauthor]
    exact hmem

/-- What a document showed that cannot be closed is left behind, in itself and in others. -/
theorem Tidy.close_error (hs : Tidy s log left) {r : Refusal} (h : s.close uri = .error r) :
    Tidy r.session log (left ++ (uri :: s.lastIncluded uri).filter (showsFindings log)) := by
  obtain ⟨hdocuments, hincluded⟩ := close_eq_error h
  refine ⟨?_, ?_⟩
  · intro other hnone hshows
    by_cases habandoned : other = uri ∨ other ∈ s.lastIncluded uri
    · exact .inl (List.mem_append_right _
        (List.mem_filter.mpr ⟨List.mem_cons.mpr habandoned, hshows⟩))
    obtain ⟨hne, hnot⟩ := not_or.mp habandoned
    rw [hdocuments, if_neg hne] at hnone
    refine (hs.accounted other hnone hshows).imp (List.mem_append_left _) ?_
    rintro ⟨author, a, ha, huri, hfindings, hself, hmem⟩
    have hauthor : author ≠ uri := fun he => hnot (he ▸ hmem)
    refine ⟨author, a, ?_, huri, hfindings, hself, ?_⟩
    · rw [hdocuments, if_neg hauthor]
      exact ha
    · rw [lastIncluded, hincluded]
      exact hmem
  · intro other hmem
    rcases List.mem_append.mp hmem with hleft | hnew
    · exact hs.left other hleft
    · exact (List.mem_filter.mp hnew).2

/-! ### Many documents and many messages -/

/-- Texts, settings and files have no part in what is shown. -/
theorem Tidy.of_eq (hs : Tidy s log left) (hresults : s'.documents.results = s.documents.results)
    (hincluded : s'.included = s.included) : Tidy s' log left := by
  refine ⟨?_, hs.left⟩
  have hlast : s'.lastIncluded = s.lastIncluded := by
    funext author
    rw [lastIncluded, hincluded, lastIncluded]
  have hget : s'.documents.get? = s.documents.get? := by
    funext other
    rw [DocumentStore.get?, hresults, DocumentStore.get?]
  rw [hlast, hget]
  exact hs.accounted

theorem Tidy.refreshAll (hs : Tidy s log left) (documents : List (String × Analysis)) :
    Tidy (s.refreshAll documents).1 (log ++ (s.refreshAll documents).2.1)
      (unpublished left (s.refreshAll documents).2.1) := by
  induction documents generalizing s log left with
  | nil =>
    rw [Session.refreshAll, List.append_nil, unpublished_nil]
    exact hs
  | cons e rest ih =>
    obtain ⟨uri, a⟩ := e
    rw [Session.refreshAll]
    cases h : s.refresh uri (s.textOf uri) a.version with
    | error r =>
      have hkept := retains_of_refused h
      rw [List.append_nil, unpublished_nil]
      exact hs.of_eq hkept.results hkept.included
    | ok r =>
      have hnext := ih (hs.refresh h)
      rw [List.append_assoc, ← unpublished_append] at hnext
      exact hnext

theorem Tidy.receive (hs : Tidy s log left) (m : Message) :
    Tidy (s.receive m).1 (log ++ (s.receive m).2)
      (unpublished (left ++ s.abandonedBy log m) (s.receive m).2) := by
  cases m with
  | start root folders settings =>
    have hreset := reset_start s root folders settings
    simp only [Session.receive, abandonedBy, List.append_nil, unpublished_nil]
    exact hs.of_eq (congrArg _ hreset.documents) hreset.included
  | files tree =>
    simp only [Session.receive, abandonedBy, List.append_nil, unpublished_nil]
    exact hs.of_eq rfl rfl
  | reconfigure settings =>
    simp only [Session.receive, reconfigure, abandonedBy, List.append_nil]
    cases h : s.configure settings with
    | error e =>
      rw [List.append_nil, unpublished_nil]
      exact hs
    | ok s' =>
      have hreset := reset_configure h
      exact (hs.of_eq (congrArg _ hreset.documents) hreset.included).refreshAll _
  | refresh uri text version =>
    simp only [Session.receive, abandonedBy, List.append_nil]
    cases h : s.refresh uri text version with
    | error r =>
      have hkept := retains_of_refused h
      rw [List.append_nil, unpublished_nil]
      exact hs.of_eq hkept.results hkept.included
    | ok r => exact hs.refresh h
  | close uri =>
    simp only [Session.receive, abandonedBy]
    cases h : s.close uri with
    | error r =>
      rw [List.append_nil, unpublished_nil]
      exact hs.close_error h
    | ok r =>
      rw [List.append_nil]
      exact hs.close h

namespace Chronicle

theorem tidy_ofMessages (files : FileTree) (ms : List Message) :
    let c := ofMessages files ms
    Tidy c.session c.log c.leftBehind := by
  induction ms using List.reverseRecOn with
  | nil =>
    refine ⟨?_, ?_⟩
    · intro other _ hshows
      cases hshows
    · intro other hmem
      cases hmem
  | append_singleton ms m ih =>
    rw [ofMessages_concat]
    exact ih.receive m

/-- Only a document that cannot be closed leaves findings behind. -/
theorem leftBehind_eq_nil (files : FileTree) (ms : List Message)
    (h : ∀ before uri after, ms = before ++ .close uri :: after →
      ∃ done, (ofMessages files before).session.close uri = .ok done) :
    (ofMessages files ms).leftBehind = [] := by
  induction ms using List.reverseRecOn with
  | nil => rfl
  | append_singleton ms m ih =>
    have hbefore : (ofMessages files ms).leftBehind = [] := by
      refine ih fun before uri after he => h before uri (after ++ [m]) ?_
      rw [he, List.append_assoc, List.cons_append]
    have hnone : (ofMessages files ms).session.abandonedBy (ofMessages files ms).log m = [] := by
      cases m with
      | close uri =>
        obtain ⟨done, hdone⟩ := h ms uri [] rfl
        rw [abandonedBy, hdone]
      | _ => rfl
    rw [ofMessages_concat, next, hbefore, hnone]
    rfl

end Chronicle

/-- In every session a document that shows findings is open, or some open document has findings in
it, or the findings were left behind: by a document that was forgotten because it could not be
closed. Those that were left behind are there until something is published for their document. So
where every document can be closed nothing is shown once all are closed, and elsewhere exactly what
was left behind. -/
theorem shown_findings_accounted (files : FileTree) (ms : List Message) :
    let c := Chronicle.ofMessages files ms
    (∀ uri ds, shown c.log uri = some ds → ds ≠ [] →
      c.session.documents.contains uri = true ∨
      (∃ other a, c.session.documents.get? other = some a ∧ ∃ d ∈ a.diagnostics, d.uri = uri) ∨
      uri ∈ c.leftBehind) ∧
    (∀ uri ∈ c.leftBehind, ∃ ds, shown c.log uri = some ds ∧ ds ≠ []) ∧
    ((∀ uri, c.session.documents.contains uri = false) →
      ∀ uri ds, shown c.log uri = some ds → (ds ≠ [] ↔ uri ∈ c.leftBehind)) ∧
    ((∀ before uri after, ms = before ++ .close uri :: after →
      ∃ done, (Chronicle.ofMessages files before).session.close uri = .ok done) →
      c.leftBehind = []) := by
  intro c
  have htidy := Chronicle.tidy_ofMessages files ms
  have howner : ∀ uri ds, shown c.log uri = some ds → ds ≠ [] →
      c.session.documents.contains uri = true ∨
      (∃ other a, c.session.documents.get? other = some a ∧ ∃ d ∈ a.diagnostics, d.uri = uri) ∨
      uri ∈ c.leftBehind := by
    intro uri ds hds hfull
    cases hget : c.session.documents.get? uri with
    | some a => exact .inl (by rw [DocumentStore.contains, hget]; rfl)
    | none =>
      rcases htidy.accounted uri hget (showsFindings_iff.mpr ⟨ds, hds, hfull⟩) with
        hleft | ⟨author, a, ha, rfl, hfindings, hne, -⟩
      · exact .inr (.inr hleft)
      · exact .inr (.inl ⟨_, a, ha, exists_uri_eq_of_findingsIn hne hfindings⟩)
  have hleft : ∀ uri ∈ c.leftBehind, ∃ ds, shown c.log uri = some ds ∧ ds ≠ [] :=
    fun uri hmem => showsFindings_iff.mp (htidy.left uri hmem)
  refine ⟨howner, hleft, ?_, Chronicle.leftBehind_eq_nil files ms⟩
  intro hclosed uri ds hds
  constructor
  · intro hfull
    rcases howner uri ds hds hfull with hopen | ⟨other, a, ha, -⟩ | hmem
    · rw [hclosed uri] at hopen
      cases hopen
    · have hother := hclosed other
      rw [DocumentStore.contains, ha] at hother
      cases hother
    · exact hmem
  · intro hmem
    obtain ⟨ds', hds', hfull⟩ := hleft uri hmem
    cases hds.symm.trans hds'
    exact hfull

/-- A file with an illegal character shows it as long as the document that includes it is open. -/
theorem shown_findings_accounted_until_close :
    let files : FileTree :=
      { entries := [(Path.ofString "/ws/u", { content := .text "@" })], cwd := Path.ofString "/ws" }
    let opened := Chronicle.ofMessages files [.refresh "file:///ws/a" "#include u" (some 1)]
    let closed := Chronicle.ofMessages files
      [.refresh "file:///ws/a" "#include u" (some 1), .close "file:///ws/a"]
    (∃ ds, shown opened.log "file:///ws/u" = some ds ∧ ds ≠ []) ∧
    opened.session.documents.contains "file:///ws/u" = false ∧
    (∃ other a, opened.session.documents.get? other = some a ∧
      ∃ d ∈ a.diagnostics, d.uri = "file:///ws/u") ∧
    (∀ uri ds, shown closed.log uri = some ds → ds = []) := by
  intro files opened closed
  have hshown : showsFindings opened.log "file:///ws/u" = true := by decide +kernel
  have hnot : opened.session.documents.contains "file:///ws/u" = false := by decide +kernel
  have hleft : opened.leftBehind = [] := by decide +kernel
  have hleft' : closed.leftBehind = [] := by decide +kernel
  have hnone : closed.session.documents.results = [] := by decide +kernel
  obtain ⟨ds, hds, hfull⟩ := showsFindings_iff.mp hshown
  refine ⟨⟨ds, hds, hfull⟩, hnot, ?_, ?_⟩
  · rcases (shown_findings_accounted files _).1 "file:///ws/u" ds hds hfull with
      hopen | howner | hmem
    · cases hnot.symm.trans hopen
    · exact howner
    · rw [hleft] at hmem
      cases hmem
  · intro uri ds hds
    have hclosed : ∀ uri, closed.session.documents.contains uri = false := by
      intro uri
      rw [DocumentStore.contains, DocumentStore.get?, hnone]
      rfl
    by_contra hfull
    have hmem := ((shown_findings_accounted files _).2.2.1 hclosed uri ds hds).mp hfull
    rw [hleft'] at hmem
    cases hmem

/-- When a document with an illegal character has become a link to itself, it cannot be closed: its
finding is shown although no document is open. -/
theorem shown_findings_of_link_loop :
    let path := Path.ofString "/ws/a"
    let files : FileTree := { cwd := Path.ofString "/ws" }
    let circular : FileTree :=
      { files with entries := [(path, { statError := some .linkLoop })] }
    let c := Chronicle.ofMessages files
      [.refresh "file:///ws/a" "@" (some 1), .files circular, .close "file:///ws/a"]
    (∃ ds, shown c.log "file:///ws/a" = some ds ∧ ds ≠ []) ∧ c.session.documents.results = [] := by
  intro path files circular c
  have hshown : showsFindings c.log "file:///ws/a" = true := by decide +kernel
  exact ⟨showsFindings_iff.mp hshown, by decide +kernel⟩

end Pearl.Session
