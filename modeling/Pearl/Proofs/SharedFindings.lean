import Mathlib.Data.List.Infix
import Pearl.Proofs.IncludedFindings

namespace Pearl.Session

/-! ### Findings that are withdrawn -/

variable {s s' : Session} {log pubs : List Publication} {withdrawn : List String}
variable {uri text author other : String} {version : Option Int}

theorem mem_withdraw :
    other ∈ s.withdraw s' author withdrawn ↔ other ≠ author ∧
      other ∉ s'.lastIncluded author ∧ (other ∈ withdrawn ∨ other ∈ s.lastIncluded author) := by
  simp only [withdraw, List.mem_filter, List.mem_append, Bool.and_eq_true, decide_eq_true_eq,
    Bool.not_eq_true', List.contains_eq_mem, decide_eq_false_iff_not]
  tauto

/-- Documents whose findings have been withdrawn show none. -/
def Cleared (log : List Publication) (withdrawn : List String) : Prop :=
  ∀ other ∈ withdrawn, shown log other = some []

theorem Cleared.refresh (hs : Cleared log withdrawn)
    (h : s.refresh uri text version = .ok (s', pubs)) :
    Cleared (log ++ pubs) (s.withdraw s' uri withdrawn) := by
  obtain ⟨a, -, -, -, hshown⟩ := refresh_others h
  intro other hmem
  obtain ⟨hne, hnow, hbefore⟩ := mem_withdraw.mp hmem
  rw [hshown log other hne, if_neg hnow]
  split
  · rfl
  · rename_i hlast
    exact hs other (hbefore.resolve_right hlast)

theorem Cleared.close (hs : Cleared log withdrawn) (h : s.close uri = .ok (s', pubs)) :
    Cleared (log ++ pubs) (uri :: (withdrawn ++ s.lastIncluded uri)) := by
  obtain ⟨-, -, rfl⟩ := close_cases h
  intro other hmem
  rw [shown_clear]
  split
  · rfl
  · rename_i hkept
    simp only [List.mem_append, mem_inOrder, List.mem_singleton, not_or] at hkept
    simp only [List.mem_cons, List.mem_append, hkept, false_or, or_false] at hmem
    exact hs other hmem

theorem Cleared.refreshAll (hs : Cleared log withdrawn) (documents : List (String × Analysis)) :
    Cleared (log ++ (s.refreshAll documents).2.1) (s.withdrawAll withdrawn documents) := by
  induction documents generalizing s log withdrawn with
  | nil =>
    rw [Session.refreshAll, List.append_nil]
    exact hs
  | cons e rest ih =>
    obtain ⟨uri, a⟩ := e
    rw [Session.refreshAll, withdrawAll]
    cases h : s.refresh uri (s.textOf uri) a.version with
    | error r =>
      rw [List.append_nil]
      exact hs
    | ok r =>
      rw [← List.append_assoc]
      exact ih (hs.refresh h)

theorem Cleared.receive (hs : Cleared log withdrawn) (m : Message) :
    Cleared (log ++ (s.receive m).2) (s.withdrawnBy withdrawn m) := by
  cases m with
  | start | files =>
    simp only [Session.receive, List.append_nil]
    exact hs
  | reconfigure settings =>
    simp only [Session.receive, reconfigure, withdrawnBy]
    cases h : s.configure settings with
    | error e => simpa using hs
    | ok s' => exact hs.refreshAll _
  | refresh uri text version =>
    simp only [Session.receive, withdrawnBy]
    cases h : s.refresh uri text version with
    | error r => simpa using hs
    | ok r => exact hs.refresh h
  | close uri =>
    simp only [Session.receive, withdrawnBy]
    cases h : s.close uri with
    | error r => simpa using hs
    | ok r => exact hs.close h

theorem Chronicle.cleared_ofMessages (files : FileTree) (ms : List Message) :
    Cleared (ofMessages files ms).log (ofMessages files ms).withdrawn := by
  induction ms using List.reverseRecOn with
  | nil =>
    intro other hmem
    cases hmem
  | append_singleton ms m ih =>
    rw [ofMessages_concat]
    exact ih.receive m

/-! ### Findings shared by documents -/

/-- The documents that are analysed again, up to one that is refused. -/
def analysedAll (s : Session) : List (String × Analysis) → List String
  | [] => []
  | (uri, a) :: rest =>
    match s.refresh uri (s.textOf uri) a.version with
    | .error _ => []
    | .ok (s', _) => uri :: s'.analysedAll rest

/-- The message gets a document analysed: it sends its text, or applies settings while it is
open. -/
def analyses (s : Session) (author : String) : Message → Bool
  | .refresh uri text version => uri = author && (s.refresh uri text version).isOk
  | .reconfigure settings =>
    match s.configure settings with
    | .ok s => (s.analysedAll s.documents.results).contains author
    | .error _ => false
  | _ => false

/-- The findings that one document has in another are shown there if nobody has withdrawn them,
unless the other one is open. -/
def Records (s : Session) (log : List Publication) (withdrawn : List String)
    (author other : String) : Prop :=
  s.documents.get? other = none → ∀ a, s.documents.get? author = some a →
    findingsIn a other ≠ [] → other ∉ withdrawn → showsFindings log other = true

/-- A document that is not open is published to by every analysis with findings in it. -/
theorem records_of_refresh (h : s.refresh author text version = .ok (s', pubs))
    (log : List Publication) (withdrawn : List String) (other : String) :
    Records s' (log ++ pubs) withdrawn author other := by
  obtain ⟨a, ha, hdocuments, hincluded, hshown⟩ := refresh_others h
  intro hclosed b hb hfindings _
  rw [hdocuments, if_pos rfl] at hb
  cases hb
  have hne : other ≠ a.uri := by
    rintro rfl
    rw [hdocuments, if_pos ha] at hclosed
    cases hclosed
  have hmem : other ∈ s'.lastIncluded author := by
    rw [hincluded, if_pos rfl]
    exact mem_includedBy_iff.mpr ⟨hfindings, hne, hclosed⟩
  refine showsFindings_iff.mpr ⟨_, ?_, hfindings⟩
  rw [hshown log other (ha ▸ hne), if_pos hmem]

theorem Records.refresh (hs : Records s log withdrawn author other)
    (h : s.refresh uri text version = .ok (s', pubs)) :
    Records s' (log ++ pubs) (s.withdraw s' uri withdrawn) author other := by
  by_cases hauthor : author = uri
  · subst hauthor
    exact records_of_refresh h log _ other
  · obtain ⟨a, -, hdocuments, hincluded, hshown⟩ := refresh_others h
    intro hclosed b hb hfindings hnot
    rw [hdocuments] at hclosed
    rw [hdocuments, if_neg hauthor] at hb
    split at hclosed
    · cases hclosed
    rename_i hne
    by_cases hnow : other ∈ s'.lastIncluded uri
    · have hincludes := hnow
      rw [hincluded, if_pos rfl] at hincludes
      refine showsFindings_iff.mpr ⟨findingsIn a other, ?_, (mem_includedBy_iff.mp hincludes).1⟩
      rw [hshown log other hne, if_pos hnow]
    · have hkept : other ∉ withdrawn ∧ other ∉ s.lastIncluded uri := by
        rw [mem_withdraw] at hnot
        tauto
      rw [showsFindings_append (not_mem_published h hne hnow hkept.2)]
      exact hs hclosed b hb hfindings hkept.1

theorem Records.of_eq (hs : Records s log withdrawn author other)
    (hresults : s'.documents.results = s.documents.results) :
    Records s' log withdrawn author other := by
  intro hclosed a ha
  rw [DocumentStore.get?, hresults] at hclosed ha
  exact hs hclosed a ha

theorem Records.refreshAll (hs : Records s log withdrawn author other)
    (documents : List (String × Analysis)) :
    Records (s.refreshAll documents).1 (log ++ (s.refreshAll documents).2.1)
      (s.withdrawAll withdrawn documents) author other := by
  induction documents generalizing s log withdrawn with
  | nil =>
    rw [Session.refreshAll, List.append_nil]
    exact hs
  | cons e rest ih =>
    obtain ⟨u, a⟩ := e
    rw [Session.refreshAll, withdrawAll]
    cases h : s.refresh u (s.textOf u) a.version with
    | error r =>
      rw [List.append_nil]
      exact hs.of_eq (retains_of_refused h).results
    | ok r =>
      rw [← List.append_assoc]
      exact ih (hs.refresh h)

/-- A document that is analysed among others has its findings on record. -/
theorem records_of_refreshAll {documents : List (String × Analysis)}
    (hmem : author ∈ s.analysedAll documents) (log : List Publication) (withdrawn : List String)
    (other : String) :
    Records (s.refreshAll documents).1 (log ++ (s.refreshAll documents).2.1)
      (s.withdrawAll withdrawn documents) author other := by
  induction documents generalizing s log withdrawn with
  | nil => cases hmem
  | cons e rest ih =>
    obtain ⟨u, a⟩ := e
    rw [analysedAll] at hmem
    rw [Session.refreshAll, withdrawAll]
    cases h : s.refresh u (s.textOf u) a.version with
    | error r =>
      rw [h] at hmem
      cases hmem
    | ok r =>
      rw [h] at hmem
      rw [← List.append_assoc]
      rcases List.mem_cons.mp hmem with rfl | hmem
      · exact (records_of_refresh h log _ other).refreshAll rest
      · exact ih hmem _ _

/-- Findings in a document that is not open stay on record. -/
theorem Records.receive (hs : Records s log withdrawn author other)
    (hclosed : s.documents.get? other = none) (m : Message) :
    Records (s.receive m).1 (log ++ (s.receive m).2) (s.withdrawnBy withdrawn m) author other := by
  cases m with
  | start root folders settings =>
    simp only [Session.receive, List.append_nil]
    exact hs.of_eq (congrArg _ (reset_start s root folders settings).documents)
  | files tree =>
    simp only [Session.receive, List.append_nil]
    exact hs.of_eq rfl
  | reconfigure settings =>
    simp only [Session.receive, reconfigure, withdrawnBy]
    cases h : s.configure settings with
    | error e => simpa using hs
    | ok s' => exact (hs.of_eq (congrArg _ (reset_configure h).documents)).refreshAll _
  | refresh uri text version =>
    simp only [Session.receive, withdrawnBy]
    cases h : s.refresh uri text version with
    | error r =>
      rw [List.append_nil]
      exact hs.of_eq (retains_of_refused h).results
    | ok r => exact hs.refresh h
  | close uri =>
    simp only [Session.receive, withdrawnBy]
    cases h : s.close uri with
    | error r =>
      intro _ a ha hfindings hnot
      rw [(close_eq_error h).1] at ha
      rw [List.append_nil]
      split at ha
      · cases ha
      · exact hs hclosed a ha hfindings hnot
    | ok r =>
      obtain ⟨hdocuments, -, hpubs⟩ := close_cases h
      intro _ a ha hfindings hnot
      dsimp only at ha ⊢
      rw [hdocuments] at ha
      split at ha
      · cases ha
      simp only [List.mem_cons, List.mem_append, not_or] at hnot
      rw [showsFindings_append (by simp [hpubs, mem_inOrder, hnot])]
      exact hs hclosed a ha hfindings hnot.2.1

theorem records_of_analyses {m : Message} (hm : s.analyses author m = true)
    (log : List Publication) (withdrawn : List String) (other : String) :
    Records (s.receive m).1 (log ++ (s.receive m).2) (s.withdrawnBy withdrawn m) author other := by
  cases m with
  | start | files | close => cases hm
  | refresh uri text version =>
    obtain ⟨huri, hok⟩ := Bool.and_eq_true_iff.mp hm
    obtain rfl : uri = author := of_decide_eq_true huri
    simp only [Session.receive, withdrawnBy]
    cases h : s.refresh uri text version with
    | error r =>
      rw [h] at hok
      cases hok
    | ok r => exact records_of_refresh h log _ other
  | reconfigure settings =>
    simp only [Session.receive, reconfigure, withdrawnBy, analyses] at hm ⊢
    cases h : s.configure settings with
    | error e =>
      rw [h] at hm
      cases hm
    | ok s' =>
      rw [h] at hm
      exact records_of_refreshAll (List.contains_iff_mem.mp hm) log withdrawn other

/-- Let an open document have findings in another, which has not been open since an analysis of the
first. Then the other has been sent a list, and that list is not empty unless findings in it have
been withdrawn since they were last published. -/
theorem shared_findings_shown_iff (files : FileTree) (before after : List Message) (m : Message)
    (author other : String) (a : Analysis)
    (hanalyses : (Chronicle.ofMessages files before).session.analyses author m = true)
    (hclosed : ∀ later, later <+: after →
      (Chronicle.ofMessages files (before ++ m :: later)).session.documents.get? other = none)
    (ha : (Chronicle.ofMessages files (before ++ m :: after)).session.documents.get? author =
      some a)
    (hfindings : findingsIn a other ≠ []) :
    let c := Chronicle.ofMessages files (before ++ m :: after)
    ∃ ds, shown c.log other = some ds ∧ (ds ≠ [] ↔ other ∉ c.withdrawn) := by
  intro c
  have hrecords : Records c.session c.log c.withdrawn author other := by
    clear ha hfindings
    induction after using List.reverseRecOn with
    | nil =>
      unfold c
      rw [Chronicle.ofMessages_concat]
      exact records_of_analyses hanalyses _ _ other
    | append_singleton after m' ih =>
      have hlonger : ∀ later, later <+: after → later <+: after ++ [m'] :=
        fun later h => h.trans (List.prefix_append after [m'])
      have hbefore := ih fun later h => hclosed later (hlonger later h)
      have hlast := hclosed after (hlonger after List.prefix_rfl)
      have hconcat : before ++ m :: (after ++ [m']) = (before ++ m :: after) ++ [m'] := by simp
      unfold c
      rw [hconcat, Chronicle.ofMessages_concat]
      exact hbefore.receive hlast m'
  have hnone := hclosed after List.prefix_rfl
  by_cases hwithdrawn : other ∈ c.withdrawn
  · exact ⟨[], Chronicle.cleared_ofMessages files _ other hwithdrawn, by simp [hwithdrawn]⟩
  · obtain ⟨ds, hds, hfull⟩ :=
      showsFindings_iff.mp (hrecords hnone a ha hfindings hwithdrawn)
    exact ⟨ds, hds, iff_of_true hfull hwithdrawn⟩

/-- Two documents include one file. The second withdraws the findings in it when it is closed, and
publishes them again when it is opened again. -/
theorem shared_findings_shown_iff_reopened :
    let files : FileTree :=
      { entries := [(Path.ofString "/ws/u", { content := .text "@" })], cwd := Path.ofString "/ws" }
    let m := Message.refresh "file:///ws/a" "#include u" (some 1)
    let again := Message.refresh "file:///ws/b" "#include u" (some 1)
    let c := Chronicle.ofMessages files [m, again, .close "file:///ws/b", again]
    "file:///ws/u" ∉ c.withdrawn ∧ ∃ ds, shown c.log "file:///ws/u" = some ds ∧ ds ≠ [] := by
  intro files m again c
  have hclosed : ∀ later ∈ [again, .close "file:///ws/b", again].inits,
      (Chronicle.ofMessages files ([] ++ m :: later)).session.documents.get? "file:///ws/u" =
        none := by
    decide +kernel
  have hopen : (c.session.documents.get? "file:///ws/a").any
      (fun a => !(findingsIn a "file:///ws/u").isEmpty) = true := by decide +kernel
  have hwithdrawn : "file:///ws/u" ∉ c.withdrawn := by decide +kernel
  obtain ⟨a, ha, hfindings⟩ := (Option.any_eq_true ..).mp hopen
  have hfindings : findingsIn a "file:///ws/u" ≠ [] := by simpa using hfindings
  obtain ⟨ds, hds, hfull⟩ := shared_findings_shown_iff files []
    [again, .close "file:///ws/b", again] m "file:///ws/a" "file:///ws/u" a (by decide +kernel)
    (fun later h => hclosed later ((List.mem_inits later _).mpr h)) ha hfindings
  exact ⟨hwithdrawn, ds, hds, hfull.mpr hwithdrawn⟩

/-- When the second document is closed, the file shows nothing, although the first one is open, has
findings in it, and the file has never been open. -/
theorem shared_findings_not_shown_after_close :
    let files : FileTree :=
      { entries := [(Path.ofString "/ws/u", { content := .text "@" })], cwd := Path.ofString "/ws" }
    let ms := [Message.refresh "file:///ws/a" "#include u" (some 1),
      .refresh "file:///ws/b" "#include u" (some 1), .close "file:///ws/b"]
    let h := History.ofMessages files ms
    (∀ earlier ∈ ms.inits,
      (History.ofMessages files earlier).session.documents.contains "file:///ws/u" = false) ∧
    (∃ a, h.session.documents.get? "file:///ws/a" = some a ∧
      findingsIn a "file:///ws/u" ≠ []) ∧
    shown h.log "file:///ws/u" = some [] := by
  intro files ms h
  have hopen : (h.session.documents.get? "file:///ws/a").any
      (fun a => !(findingsIn a "file:///ws/u").isEmpty) = true := by decide +kernel
  obtain ⟨a, ha, hfindings⟩ := (Option.any_eq_true ..).mp hopen
  exact ⟨by decide +kernel, ⟨a, ha, by simpa using hfindings⟩, by decide +kernel⟩

end Pearl.Session
