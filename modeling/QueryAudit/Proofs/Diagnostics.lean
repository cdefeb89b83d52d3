/-
  QueryAudit.Proofs.Diagnostics — handing findings over once

  Three operations collect findings and a fourth hands them over; after that all are refused. A
  warning that is given once for its key looks at the key first, so it may be passed over in
  silence, and its key is noted although the warning is refused.

  Main results: `answer_open`, `answer_drained`, `after_open`, `after_drained`, `drain_closes`.
-/

import QueryAudit.Proofs.Audit.Outcome

namespace QueryAudit.Diagnostics

open List

variable {key : String} {later before : List Call} {call : Call} {d : Diagnostics}

/-! ## Calls. -/

/-- An operation on findings with its arguments. -/
inductive Call where
  | addReference (reference : Reference)
  | warn (warning : Warning)
  | warnOnce (key : String) (warning : Warning)
  | drain
  deriving DecidableEq, Repr

inductive Answer where
  | added
  | warned (warning : Warning)
  | passedOver
  | handedOver (references : List Reference) (warnings : List Warning)
  | refused
  deriving DecidableEq, Repr

def Call.run : Call → Step Answer
  | .addReference reference => do
    Diagnostics.addReference reference
    return .added
  | .warn warning => do return .warned (← Diagnostics.warn warning)
  | .warnOnce key warning => do
    match ← Diagnostics.warnOnce key warning with
    | some warning => return .warned warning
    | none => return .passedOver
  | .drain => do
    let (references, warnings) ← Diagnostics.drain
    return .handedOver references warnings

/-- The answer to a call, a refusal included, and the findings after it. -/
def Call.answer (call : Call) (d : Diagnostics) : Answer × Diagnostics :=
  match call.run d with
  | .ok a d => (a, d)
  | .error _ d => (.refused, d)

def after (calls : List Call) (d : Diagnostics) : Diagnostics :=
  calls.foldl (fun d call => (call.answer d).2) d

theorem after_append : after (before ++ later) d = after later (after before d) := foldl_append

theorem after_cons : after (call :: later) d = after later (call.answer d).2 := rfl

/-! ## What was asked for. -/

def Call.key? : Call → Option String
  | .warnOnce key _ => some key
  | _ => none

def mentions (calls : List Call) (key : String) : Bool := calls.any (·.key? = some key)

theorem mentions_append :
    mentions (before ++ later) key = (mentions before key || mentions later key) := any_append

theorem mentions_singleton : mentions [call] key = decide (call.key? = some key) := by
  simp [mentions]

def referencesIn (calls : List Call) : List Reference :=
  calls.filterMap fun
    | .addReference reference => some reference
    | _ => none

/-- The warnings of some calls, in order. One that is given once counts if its key did not come up
in an earlier call. -/
def warningsIn (earlier : List Call) : List Call → List Warning
  | [] => []
  | call :: later =>
    match call with
    | .warn warning => warning :: warningsIn (earlier ++ [call]) later
    | .warnOnce key warning =>
      if mentions earlier key then warningsIn (earlier ++ [call]) later
      else warning :: warningsIn (earlier ++ [call]) later
    | _ => warningsIn (earlier ++ [call]) later

/-! ## One call. -/

section OneCall

variable {d : Diagnostics}

/-- A warning that is given once: its key is looked at first, then whether findings are collected. -/
theorem warnOnce_eq (key : String) (warning : Warning) (d : Diagnostics) :
    Diagnostics.warnOnce key warning d =
      if d.seen.contains key then .ok none d
      else if d.drained then .error {} { d with seen := d.seen ++ [key] }
      else .ok (some warning) { d with seen := d.seen ++ [key], warnings := d.warnings ++ [warning] } := by
  unfold Diagnostics.warnOnce
  rw [bind_of_ok run_get]
  by_cases hseen : d.seen.contains key = true
  · rw [if_pos hseen, if_pos hseen]
    rfl
  · rw [if_neg hseen, if_neg hseen]
    obtain ⟨references, warnings, seen, drained⟩ := d
    cases drained <;> rfl

theorem answer_warnOnce (key : String) (warning : Warning) (d : Diagnostics) :
    (Call.warnOnce key warning).answer d =
      if d.seen.contains key then (.passedOver, d)
      else if d.drained then (.refused, { d with seen := d.seen ++ [key] })
      else (.warned warning, { d with seen := d.seen ++ [key], warnings := d.warnings ++ [warning] }) := by
  have hrun := warnOnce_eq key warning d
  unfold Call.answer Call.run
  dsimp only
  by_cases hseen : d.seen.contains key = true
  · rw [if_pos hseen] at hrun ⊢
    rw [bind_of_ok hrun]
    rfl
  · rw [if_neg hseen] at hrun ⊢
    cases hdrained : d.drained <;> rw [hdrained] at hrun
    · rw [bind_of_ok hrun]
      rfl
    · rw [bind_of_error hrun]
      rfl

/-- **What a call does while findings are collected.** -/
theorem answer_open (h : d.drained = false) (call : Call) :
    call.answer d = match call with
      | .addReference reference => (.added, { d with references := d.references ++ [reference] })
      | .warn warning => (.warned warning, { d with warnings := d.warnings ++ [warning] })
      | .warnOnce key warning =>
        if d.seen.contains key then (.passedOver, d)
        else (.warned warning, { d with seen := d.seen ++ [key], warnings := d.warnings ++ [warning] })
      | .drain => (.handedOver d.references d.warnings,
          { d with references := [], warnings := [], drained := true }) := by
  cases call with
  | warnOnce key warning =>
    rw [answer_warnOnce, h]
    rfl
  | addReference reference | warn warning | drain =>
    obtain ⟨references, warnings, seen, drained⟩ := d
    obtain rfl : drained = false := h
    rfl

/-- **What a call does after everything was handed over.** -/
theorem answer_drained (h : d.drained) (call : Call) :
    call.answer d = match call.key? with
      | none => (.refused, d)
      | some key =>
        if d.seen.contains key then (.passedOver, d) else (.refused, { d with seen := d.seen ++ [key] }) := by
  cases call with
  | warnOnce key warning =>
    rw [answer_warnOnce, h]
    rfl
  | addReference reference | warn warning | drain =>
    obtain ⟨references, warnings, seen, drained⟩ := d
    obtain rfl : drained := h
    rfl

/-- Whatever a call answers, its key has come up afterwards. -/
theorem mem_seen_answer : key ∈ (call.answer d).2.seen ↔ key ∈ d.seen ∨ call.key? = some key := by
  cases call with
  | warnOnce other warning =>
    rw [answer_warnOnce]
    by_cases hseen : d.seen.contains other = true
    · have hmem := contains_iff_mem.mp hseen
      simp only [if_pos hseen, Call.key?, Option.some.injEq]
      exact ⟨.inl, fun h => h.elim id fun heq => heq ▸ hmem⟩
    · rw [if_neg hseen, Call.key?, Option.some.injEq, @eq_comm _ other]
      cases d.drained <;> simp
  | addReference reference | warn warning | drain =>
    cases hdrained : d.drained with
    | true => simp [answer_drained hdrained, Call.key?]
    | false => simp [answer_open hdrained, Call.key?]

end OneCall

/-! ## Lists of calls. -/

theorem mem_seen_after {calls : List Call} (d : Diagnostics) :
    key ∈ (after calls d).seen ↔ key ∈ d.seen ∨ mentions calls key := by
  induction calls generalizing d with
  | nil => simp [after, mentions]
  | cons call later ih =>
    rw [after_cons, ih, mem_seen_answer, or_assoc]
    simp [mentions]

/-- **Calls that hand nothing over only collect**, after earlier calls whose keys have come up. -/
theorem after_open (calls earlier : List Call) (hopen : d.drained = false)
    (hseen : ∀ key, key ∈ d.seen ↔ mentions earlier key) (hcalls : Call.drain ∉ calls) :
    (after calls d).drained = false ∧ (after calls d).references = d.references ++ referencesIn calls
      ∧ (after calls d).warnings = d.warnings ++ warningsIn earlier calls := by
  induction calls generalizing d earlier with
  | nil => simp [after, hopen, referencesIn, warningsIn]
  | cons call later ih =>
    rw [mem_cons, not_or] at hcalls
    have hnext : ∀ key, key ∈ (call.answer d).2.seen ↔ mentions (earlier ++ [call]) key := by
      intro key
      rw [mem_seen_answer, hseen, mentions_append, mentions_singleton, Bool.or_eq_true, decide_eq_true_eq]
    have hstep := answer_open hopen call
    have hrest := fun hstill => ih (earlier ++ [call]) (d := (call.answer d).2) hstill hnext hcalls.2
    rw [after_cons]
    cases call with
    | drain => exact absurd rfl hcalls.1
    | addReference reference | warn warning =>
      obtain ⟨hd, hreferences, hwarnings⟩ := hrest (by rw [hstep]; exact hopen)
      rw [hstep] at hreferences hwarnings ⊢
      exact ⟨hstep ▸ hd, hreferences.trans (by simp [referencesIn]), hwarnings.trans (by simp [warningsIn])⟩
    | warnOnce key warning =>
      have hkey : d.seen.contains key = mentions earlier key := by
        rw [Bool.eq_iff_iff, contains_iff_mem]
        exact hseen key
      rw [warningsIn]
      by_cases hold : mentions earlier key = true
      · have hsame : ((Call.warnOnce key warning).answer d).2 = d := by
          rw [hstep]
          simp only [hkey, if_pos hold]
        obtain ⟨hd, hreferences, hwarnings⟩ := hrest (by rw [hsame]; exact hopen)
        rw [hsame] at hreferences hwarnings hd
        rw [hsame, if_pos hold]
        exact ⟨hd, hreferences, hwarnings⟩
      · have hnew : ((Call.warnOnce key warning).answer d).2
            = { d with seen := d.seen ++ [key], warnings := d.warnings ++ [warning] } := by
          rw [hstep]
          simp only [hkey, if_neg hold]
        obtain ⟨hd, hreferences, hwarnings⟩ := hrest (by rw [hnew]; exact hopen)
        rw [hnew] at hreferences hwarnings hd
        rw [hnew, if_neg hold]
        refine ⟨hd, hreferences, ?_⟩
        rw [hwarnings, append_assoc]
        rfl

/-- **Calls after everything was handed over collect nothing.** -/
theorem after_drained (calls : List Call) (h : d.drained) :
    (after calls d).drained ∧ (after calls d).references = d.references
      ∧ (after calls d).warnings = d.warnings := by
  induction calls generalizing d with
  | nil => exact ⟨h, rfl, rfl⟩
  | cons call later ih =>
    have hstep : (call.answer d).2.drained ∧ (call.answer d).2.references = d.references
        ∧ (call.answer d).2.warnings = d.warnings := by
      rw [answer_drained h]
      split
      · exact ⟨h, rfl, rfl⟩
      · split <;> exact ⟨h, rfl, rfl⟩
    obtain ⟨hdrained, hreferences, hwarnings⟩ := ih hstep.1
    rw [after_cons, hreferences, hwarnings]
    exact ⟨hdrained, hstep.2⟩

/-- Everything is handed over at most once. -/
theorem notMem_of_handedOver (h : (Call.drain.answer (after before {})).1 ≠ .refused) :
    Call.drain ∉ before := by
  intro hmem
  obtain ⟨first, rest, rfl⟩ := append_of_mem hmem
  rw [after_append, after_cons] at h
  have hclosed : (Call.drain.answer (after first {})).2.drained := by
    cases hd : (after first {}).drained with
    | false => rw [answer_open hd]
    | true =>
      rw [answer_drained hd]
      exact hd
  have hlater := (after_drained rest hclosed).1
  rw [answer_drained hlater] at h
  exact h rfl

/-- **Handing over closes the findings.** The call gives the references and warnings of the calls
before it; after it there are none. Further calls are refused and change nothing, with one
exception: a warning that is given once is passed over if its key came up before, and leaves its key
behind if it is refused. -/
theorem drain_closes {before : List Call} (h : (Call.drain.answer (after before {})).1 ≠ .refused)
    (later : List Call) (call : Call) :
    (Call.drain.answer (after before {})).1 = .handedOver (referencesIn before) (warningsIn [] before)
      ∧ (after (before ++ .drain :: later) {}).references = []
      ∧ (after (before ++ .drain :: later) {}).warnings = []
      ∧ (∀ key, key ∈ (after (before ++ .drain :: later) {}).seen ↔ mentions (before ++ later) key = true)
      ∧ call.answer (after (before ++ .drain :: later) {}) = match call.key? with
        | none => (.refused, after (before ++ .drain :: later) {})
        | some key =>
          if mentions (before ++ later) key then (.passedOver, after (before ++ .drain :: later) {})
          else (.refused, { after (before ++ .drain :: later) {} with
            seen := (after (before ++ .drain :: later) {}).seen ++ [key] }) := by
  obtain ⟨hopen, hreferences, hwarnings⟩ := after_open before [] (d := {}) rfl
    (fun key => by simp [mentions]) (notMem_of_handedOver h)
  have hdrain := answer_open hopen .drain
  obtain ⟨hdrained, hnone, hnoWarning⟩ := after_drained later (d := (Call.drain.answer (after before {})).2)
    (by rw [hdrain])
  have hafter : after (before ++ .drain :: later) {}
      = after later (Call.drain.answer (after before {})).2 := by
    rw [after_append, after_cons]
  rw [hafter]
  have hseen : ∀ key, key ∈ (after later (Call.drain.answer (after before {})).2).seen
      ↔ mentions (before ++ later) key = true := by
    intro key
    rw [mem_seen_after, mem_seen_answer, mem_seen_after, mentions_append, Bool.or_eq_true]
    simp [Call.key?]
  refine ⟨?_, ?_, ?_, hseen, ?_⟩
  · rw [hdrain, hreferences, hwarnings]
    rfl
  · rw [hnone, hdrain]
  · rw [hnoWarning, hdrain]
  rw [answer_drained hdrained]
  cases call.key? with
  | none => rfl
  | some key =>
    have hkey : (after later (Call.drain.answer (after before {})).2).seen.contains key
        = mentions (before ++ later) key := by
      rw [Bool.eq_iff_iff, List.contains_iff_mem]
      exact hseen key
    dsimp only
    rw [hkey]

/-- A reference, a warning and one that is given once are handed over; after a refused one, a warning
whose key is new is refused, and its key is noted. -/
theorem drain_closes_threeCalls :
    let reference : Reference := ⟨"db", "user", "SELECT 1", "/a.php", 3, "", ""⟩
    let warning : Warning := { message := "w" }
    let before : List Call := [.addReference reference, .warn warning, .warnOnce "k" warning, .warnOnce "k" warning]
    (Call.drain.answer (after before {})).1 = .handedOver [reference] [warning, warning]
      ∧ (Call.warnOnce "n" warning).answer (after (before ++ [.drain, .warn warning]) {})
        = (.refused, { seen := ["k", "n"], drained := true }) := by
  intro reference warning before
  obtain ⟨hgiven, -, -, -, hlater⟩ := @drain_closes before (by decide) [.warn warning]
    (.warnOnce "n" warning)
  exact ⟨hgiven, hlater⟩

/-- A warning that is given once is not always refused after everything was handed over, and when it
is, it changes the keys. -/
theorem warnOnce_escapes_drain :
    ((Call.warnOnce "k" { message := "w" }).answer
        (after [.warnOnce "k" { message := "w" }, .drain] {})).1 = .passedOver
      ∧ ((Call.warnOnce "n" { message := "w" }).answer (after [.drain] {})).2.seen = ["n"] := by
  decide

end QueryAudit.Diagnostics
