/-
  QueryAudit.Proofs.Query.Watching — analyses that note which calls they check

  The same analysis once more, which besides its state notes what was done about calls: that a call
  was checked, and whether it was taken for a command or for a finder. A check that is given up is
  noted, too.

  Main results: `adds_checkSite`, `Watched.analyze_erases`.
-/

import QueryAudit.Proofs.Audit.Watching
import QueryAudit.Proofs.Lockstep.Checking

namespace QueryAudit.Query

open Audit Php Scope QueryAudit.Watched

/-! ## Watched steps. -/

inductive Visit where
  | checked (site : Site)
  | command (site : Site)
  | finder (site : Site)

/-- A step of an analysis that notes what is done about calls. -/
abbrev Watched (α : Type) := QueryAudit.Watched.Step Visit α

namespace Watched

variable {path : String} {r t : Run}

def checkCall (site : Site) : Watched Unit := do
  note (.checked site)
  let settings := (← plain get).settings
  let method := site.node.nameText
  if settings.isCommandFactory method then
    note (.command site)
    plain (checkCommand site)
  else if settings.isFinder method then
    note (.finder site)
    plain (checkFinder site)

/-- Check a call; one whose shape is not handled is passed over or ends the analysis. -/
def checkSite (site : Site) : Watched Unit :=
  tryCatch (checkCall site) fun failure => plain (passOver failure)

def checkSites (path : String) : List (Cursor × Closure) → Watched Unit
  | [] => return
  | (node, _) :: rest => do
    checkSite ⟨node, path⟩
    checkSites path rest

def checkFile (scopes : FileScopes) : Watched Unit := do
  plain (modify fun r =>
    { r with scopes := r.scopes.modify scopes.path fun s => { s with callSites := [] } })
  checkSites scopes.path scopes.callSites

/-- Check the calls of a file whose definitions were found, and put it aside. -/
def checkFound (path : String) : Option FileScopes → Watched Unit
  | none => return
  | some scopes => do
    checkFile scopes
    plain (evict path)

def analyzeFile (path : String) : Watched Unit := do
  let found ← plain (tryCatch (some <$> scopesOf path) (passMissing path))
  checkFound path found

def analyzeAll : List String → Watched Unit
  | [] => return
  | path :: rest => do
    analyzeFile path
    analyzeAll rest

/-- Find the record classes around a target and check the calls in its files. -/
def analyze (target : String) : Watched Findings := do
  plain (prepareTarget target)
  let files ← plain (targetFiles target)
  analyzeAll files
  plain (report target files)

/-! ## Checking a call. -/

/-- The entries of a call: it is checked, and is taken for a command or for a finder. -/
def visitsOf (settings : Settings) (site : Site) : List Visit :=
  .checked site :: if settings.isCommandFactory site.node.nameText then [.command site]
    else if settings.isFinder site.node.nameText then [.finder site] else []

theorem adds_checkCall (site : Site) (r : Run) :
    QueryAudit.Watched.Adds (checkCall site) (Query.checkCall site) r (visitsOf r.settings site) := by
  refine adds_note_bind (adds_plain_bind run_get ?_)
  by_cases hcommand : r.settings.isCommandFactory site.node.nameText = true
  · rw [if_pos hcommand, if_pos hcommand, if_pos hcommand]
    exact adds_note_bind (adds_plain _ r)
  rw [if_neg hcommand, if_neg hcommand, if_neg hcommand]
  by_cases hfinder : r.settings.isFinder site.node.nameText = true
  · rw [if_pos hfinder, if_pos hfinder, if_pos hfinder]
    exact adds_note_bind (adds_plain _ r)
  · rw [if_neg hfinder, if_neg hfinder, if_neg hfinder]
    exact adds_plain (pure ()) r

/-- **Checking a call adds the entries of that call, whatever comes of it.** -/
theorem adds_checkSite {site : Site} :
    QueryAudit.Watched.Adds (checkSite site) (Query.checkSite site) r (visitsOf r.settings site) := by
  have hcall := adds_checkCall site r
  show QueryAudit.Watched.Adds _ (tryCatch (Query.checkCall site) passOver) _ _
  cases hx : Query.checkCall site r with
  | ok a t => exact adds_tryCatch_ok hx hcall
  | error e t => exact adds_tryCatch_error hx hcall (adds_plain _ t)

/-! ## Watching changes nothing. -/

theorem erases_checkSites {sites : List (Cursor × Closure)} :
    Erases (checkSites path sites) (do
      for (node, _) in sites do Query.checkSite ⟨node, path⟩) := by
  induction sites with
  | nil => exact erases_plain (pure ())
  | cons site sites ih =>
    rw [List.forIn_cons]
    simp only [bind_assoc]
    exact erases_bind (fun r => ⟨_, adds_checkSite⟩) fun _ => ih

theorem erases_checkFound {found : Option FileScopes} :
    Erases (checkFound path found) (Audit.checkFound path found) := by
  cases found with
  | none => exact erases_plain (pure ())
  | some scopes =>
    refine erases_bind ?_ fun _ => erases_plain (evict path)
    exact erases_bind (erases_plain _) fun _ => erases_checkSites

theorem erases_analyzeAll {files : List String} :
    Erases (analyzeAll files) (Audit.analyzeAll files) := by
  induction files with
  | nil => exact erases_plain (pure ())
  | cons path files ih =>
    refine erases_bind ?_ fun _ => ih
    exact erases_bind (erases_plain _) fun found => erases_checkFound

theorem analyze_steps (target : String) : Audit.analyze target = (do
    prepareTarget target
    let files ← targetFiles target
    Audit.analyzeAll files
    report target files) := by
  rw [analyze_eq]
  unfold checkAll checkTargetFiles
  simp only [bind_assoc, pure_bind]

/-- **Watching an analysis changes nothing about it**, whether or not it completes. -/
theorem analyze_erases (target : String) : Erases (analyze target) (Audit.analyze target) := by
  rw [analyze_steps]
  refine erases_bind (erases_plain _) fun _ => erases_bind (erases_plain _) fun files => ?_
  exact erases_bind erases_analyzeAll fun _ => erases_plain _

theorem analyze_of_watched {target : String} {findings : Findings} {visits : List Visit}
    (h : analyze target (r, []) = .ok findings (t, visits)) :
    Audit.analyze target r = .ok findings t :=
  (analyze_erases target).plain_of_ok h

end Watched

end QueryAudit.Query
