import LexScope.Proofs.Described
import LexScope.Proofs.Noted
import LexScope.Proofs.Requested

/-!
# Proofs — Told — what a command line leaves behind

A command line is written for a file with a row of flags (`commandLine`), and the parser gives a
`Reply`.  What is to become of the two is said here without a look at how it is done: which options,
settings and parser call the flags stand for (`optionsOf`, `settingsOf`, `callOf`), what a line says
of an error or an issue (`ErrorLine`, `WarningLine`), and, from these, what a run leaves behind
(`Accounts`).

* `errorLine_iff`, `warningLine_iff`, `tells_iff`: the lines are those that are written.
* `Replies.answers`, `Replies.noted_eq`: a program with errors noted in it is a reply, and the
  errors that a run reads are those.
* `commandLine_accounts`: **every run leaves behind what it should**: the status is zero exactly if
  nothing is wrong, a report is delivered exactly if the analysis returns, and the messages are one
  line for every error noted and then for every issue.
-/

namespace LexScope.CommandLine

/-! ### What flags stand for -/

/-- The options of the analysis. -/
def optionsOf (flags : List Flag) : Options where
  ecmaVersion := (flags.filterMap Flag.version?).getLastD 6
  sourceType := if .moduleCode ∈ flags then .moduleCode else .script
  directive := .bool (.directive ∈ flags)
  optimistic := .bool (.optimistic ∈ flags)
  ignoreEval := .bool (.ignoreEval ∈ flags)
  impliedStrict := .bool (.impliedStrict ∈ flags)

/-- What the parser is asked for. -/
def callOf (flags : List Flag) : ParserCall where
  sourceType := if .moduleCode ∈ flags then .moduleCode else .script
  tolerant := .bool (.strict ∉ flags)

/-- How the report is made. -/
def settingsOf (flags : List Flag) : Report.Settings where
  format :=
    match (flags.filterMap Flag.format?).getLastD .text with
    | .text => .str "text"
    | .json => .str "json"
  includeReferences := .noReferences ∉ flags
  trailingNewline := true

/-- The file for the report; an empty path means the output. -/
def pathOf (flags : List Flag) : String := (flags.filterMap Flag.path?).getLastD ""

/-! ### Replies -/

/-- What a parser makes of a source text: a program, together with the errors noted in it, unless it
fails or gives nothing. -/
inductive Reply where
  | failure (f : ParserFailure)
  | nothing
  | program (tree : Tree) (records : List Tree)

/-- What the parser gives as a reply. -/
def Reply.answer : Reply → Except ParserFailure Tree
  | failure f => .error f
  | nothing => .ok .null
  | program tree _ => .ok tree

/-- What a parser may reply.  A program conforms to the grammar, its names are texts, and positions
and kinds can be read in it; among its members may be any records of errors. -/
inductive Replies : Except ParserFailure Tree → Reply → Prop where
  | failure (f : ParserFailure) : Replies (.error f) (.failure f)
  | nothing : Replies (.ok .null) .nothing
  | program {tree : Tree} (conforms : Grammar.Conforms tree) (named : tree.TextNames)
      (shown : tree.Presentable) (clean : tree.get "errors" = .null) :
      Replies (.ok tree) (.program tree [])
  | noted {front rear : List (String × Tree)} {records : List Tree}
      (conforms : Grammar.Conforms (.obj (front ++ rear)))
      (named : (Tree.obj (front ++ rear)).TextNames)
      (shown : (Tree.obj (front ++ rear)).Presentable)
      (free : "errors" ∉ (front ++ rear).map (·.1))
      (each : ∀ t ∈ records, t.isObj = true ∧ t.TextNames ∧ t.Presentable) :
      Replies (.ok (.obj (front ++ ("errors", .arr records) :: rear)))
        (.program (.obj (front ++ ("errors", .arr records) :: rear)) records)

/-! ### Lines -/

/-- A place behind the name of a file: nothing, a line, or a line and a column. -/
inductive Locates : Tree → Tree → String → Prop where
  | nowhere (column : Tree) : Locates .null column ""
  | line {line : Tree} {l : String} (hl : line ≠ .null) (h : line.Reads l) :
      Locates line .null (":" ++ l)
  | column {line column : Tree} {l k : String} (hl : line ≠ .null) (hc : column ≠ .null)
      (h : line.Reads l) (h' : column.Reads k) : Locates line column (":" ++ l ++ ":" ++ k)

/-- The line for an error that is noted in a record. -/
inductive ErrorLine (name : String) (record : Tree) : String → Prop where
  | mk {place description : String}
      (located : Locates (record.get "lineNumber") (record.get "column") place)
      (described : (record.get "description").Reads description) :
      ErrorLine name record ("ERROR " ++ name ++ place ++ ": " ++ description ++ "\n")

/-- The line for an issue. -/
inductive WarningLine (name : String) (issue : Issue) : String → Prop where
  | mk {place : String} (located : Locates issue.position.line issue.position.column place) :
      WarningLine name issue ("WARNING " ++ name ++ place ++ ": [" ++ issue.finding.code ++ "] "
        ++ issue.finding.message ++ "\n")

/-- A text is one line for each record of an error, followed by one line for each issue. -/
def Tells (name : String) (records : List Tree) (issues : List Issue) (text : String) : Prop :=
  ∃ errors warnings, List.Forall₂ (ErrorLine name) records errors ∧
    List.Forall₂ (WarningLine name) issues warnings ∧ text = String.join (errors ++ warnings)

/-! ### What is left behind -/

/-- What a run is to leave behind for a row of flags, given what the parser replied for the source
text of a file; `quiet` says that no log is asked for. -/
structure Accounts (d : Disk) (quiet : Prop) (flags : List Flag) (name : String) (reply : Reply)
    (out : Outcome) : Prop where
  /-- There are two statuses. -/
  status : out.status = 0 ∨ out.status = 1
  /-- A run succeeds if there is a program in which no errors are noted that the run reads, the
  analysis of it returns, and there are no issues if the run is strict. -/
  success : out.status = 0 ↔ ∃ tree records s issues, reply = .program tree records ∧
    (.strict ∈ flags ∨ records = []) ∧ analyze (optionsOf flags) tree = .ok s ∧
    s.issues? (.undeclared ∈ flags) = some issues ∧ (.strict ∈ flags → issues = [])
  /-- If the analysis returns, its report is delivered, whatever the status, and one line is
  written for every error noted that the run reads and then for every issue. -/
  reported : ∀ tree records s, reply = .program tree records →
    analyze (optionsOf flags) tree = .ok s →
      ∃ report issues, Report.render s (settingsOf flags) = .ok report ∧
        Delivered d (pathOf flags) report out ∧ s.issues? (.undeclared ∈ flags) = some issues ∧
        (quiet → Tells name (if .strict ∈ flags then [] else records) issues out.stderr)
  /-- If no analysis returns, nothing is delivered and there is a complaint. -/
  silent : (∀ tree records s, reply = .program tree records →
    analyze (optionsOf flags) tree ≠ .ok s) →
      out.status = 1 ∧ out.stdout = "" ∧ out.files = [] ∧
        (quiet → ∃ rest, out.stderr = "ERROR: " ++ rest)

/-! ### The lines are those that are written -/

section

variable {line column record : Tree} {text name : String} {issue : Issue} {records : List Tree}
  {issues : List Issue}

theorem locates_iff : Locates line column text ↔ text = positionText line column := by
  rw [positionText]
  constructor
  · rintro (_ | ⟨hl, h⟩ | ⟨hl, hc, h, h'⟩)
    · rw [if_pos rfl]
    · rw [if_neg hl, if_pos rfl, Tree.reads_iff.1 h]
    · rw [if_neg hl, if_neg hc, Tree.reads_iff.1 h, Tree.reads_iff.1 h']
  · rintro rfl
    split
    · rename_i hline
      exact hline ▸ .nowhere column
    · rename_i hline
      split
      · rename_i hcolumn
        exact hcolumn ▸ .line hline (Tree.reads_iff.2 rfl)
      · rename_i hcolumn
        exact .column hline hcolumn (Tree.reads_iff.2 rfl) (Tree.reads_iff.2 rfl)

theorem errorLine_iff : ErrorLine name record text ↔ text = errorLine name (errorOf record) := by
  constructor
  · rintro ⟨hplace, hdescription⟩
    rw [locates_iff.1 hplace, Tree.reads_iff.1 hdescription]
    rfl
  · rintro rfl
    exact .mk (locates_iff.2 rfl) (Tree.reads_iff.2 rfl)

theorem warningLine_iff : WarningLine name issue text ↔ text = warningLine name issue := by
  constructor
  · rintro ⟨hplace⟩
    rw [locates_iff.1 hplace]
    rfl
  · rintro rfl
    exact .mk (locates_iff.2 rfl)

/-- What stands in a fixed relation to the items of a list, item by item, is their image. -/
theorem forall₂_iff_map {α β : Type} {R : α → β → Prop} (f : α → β)
    (h : ∀ {a b}, R a b ↔ b = f a) {l : List α} {l' : List β} :
    List.Forall₂ R l l' ↔ l' = l.map f := by
  constructor
  · intro hall
    induction hall with
    | nil => rfl
    | cons hab _ ih => rw [List.map_cons, h.1 hab, ih]
  · rintro rfl
    induction l with
    | nil => exact .nil
    | cons a l ih => exact .cons (h.2 rfl) ih

/-- **What is told is determined**, and it is what a run writes. -/
theorem tells_iff : Tells name records issues text ↔
    text = String.join ((records.map errorOf).map (errorLine name)) ++
      String.join (issues.map (warningLine name)) := by
  have herrors : ∀ {lines}, List.Forall₂ (ErrorLine name) records lines ↔
      lines = (records.map errorOf).map (errorLine name) := fun {lines} => by
    rw [List.map_map]
    exact forall₂_iff_map (errorLine name ∘ errorOf) errorLine_iff
  have hwarnings : ∀ {lines}, List.Forall₂ (WarningLine name) issues lines ↔
      lines = issues.map (warningLine name) := fun {lines} =>
    forall₂_iff_map (warningLine name) warningLine_iff
  rw [← String.join_append]
  constructor
  · rintro ⟨errors, warnings, he, hw, rfl⟩
    rw [herrors.1 he, hwarnings.1 hw]
  · rintro rfl
    exact ⟨_, _, herrors.2 rfl, hwarnings.2 rfl, rfl⟩

end

/-! ### Runs -/

section

variable {d : Disk} {parser : Parser} {source name file : String} {flags : List Flag}
  {answer : Except ParserFailure Tree} {reply : Reply} {tree : Tree} {records : List Tree}
  {s : Store} {issues : List Issue} {out : Outcome} {quiet : Prop} {verbose : Bool}

theorem Replies.answer_eq (h : Replies answer reply) : answer = reply.answer := by
  cases h <;> rfl

/-- What a parser may reply is what a run can read. -/
theorem Replies.answers (h : Replies answer reply) : Answers answer := by
  cases h with
  | failure f => exact .failure f
  | nothing => exact .nothing
  | program conforms named shown clean => exact .program conforms named shown (.inl clean)
  | noted conforms named shown free each => exact .noting conforms named shown free each

/-- A program conforms to the grammar whatever is noted in it. -/
theorem Replies.conforms (h : Replies answer (.program tree records)) :
    Grammar.Conforms tree ∧ tree.TextNames ∧ tree.Presentable := by
  cases h with
  | program conforms named shown clean => exact ⟨conforms, named, shown⟩
  | noted conforms named shown free each =>
      exact ⟨conforms.noting free, named.noting fun t ht => (each t ht).2.1,
        shown.noting fun t ht => (each t ht).2.2⟩

/-- The errors noted in a program are those that a run reads. -/
theorem Replies.noted_eq (h : Replies answer (.program tree records)) (r : AnalyzeRequest) :
    r.noted tree = if r.strict then [] else records.map errorOf := by
  cases h with
  | program conforms named shown clean =>
      rw [AnalyzeRequest.noted, clean]
      rfl
  | noted conforms named shown free each => exact noted_noting free

theorem requestOf_options (file : String) (flags : List Flag) :
    (requestOf file flags).options = .ok (optionsOf flags) := by
  simp [AnalyzeRequest.options, requestOf, optionsOf]

theorem requestOf_call (file : String) (flags : List Flag) :
    (requestOf file flags).call (optionsOf flags) = callOf flags := by
  simp [AnalyzeRequest.call, requestOf, optionsOf, callOf]

theorem requestOf_settings (file : String) (flags : List Flag) :
    (requestOf file flags).settings = settingsOf flags := by
  rw [AnalyzeRequest.settings, requestOf, settingsOf]
  cases (flags.filterMap Flag.format?).getLastD .text <;> simp [Report.Format.name]

/-- A run without an analysis that returns has only to complain. -/
theorem Accounts.of_complains
    (hnone : ∀ tree records s, reply = .program tree records →
      analyze (optionsOf flags) tree ≠ .ok s)
    (h : Complains verbose out) (hquiet : quiet → verbose = false) :
    Accounts d quiet flags name reply out where
  status := .inr h.status
  success := by
    rw [h.status]
    refine ⟨nofun, ?_⟩
    rintro ⟨tree, records, s, issues, hreply, -, hrun, -⟩
    exact absurd hrun (hnone tree records s hreply)
  reported tree records s hreply hrun := absurd hrun (hnone tree records s hreply)
  silent _ := ⟨h.status, h.stdout, h.files, fun hq => h.stderr (hquiet hq)⟩

/-- A run with an analysis that returns has to deliver its report and to tell what is wrong. -/
theorem Accounts.of_analyzed {report : String} (hrun : analyze (optionsOf flags) tree = .ok s)
    (hrender : Report.render s (settingsOf flags) = .ok report)
    (hissues : s.issues? (.undeclared ∈ flags) = some issues)
    (hdelivered : Delivered d (pathOf flags) report out)
    (hstatus : out.status = if (.strict ∈ flags ∨ records = []) ∧ (.strict ∈ flags → issues = [])
      then 0 else 1)
    (hstderr : quiet → Tells name (if .strict ∈ flags then [] else records) issues out.stderr) :
    Accounts d quiet flags name (.program tree records) out where
  status := by
    rw [hstatus]
    split
    · exact .inl rfl
    · exact .inr rfl
  success := by
    rw [hstatus]
    constructor
    · intro hzero
      have hright : (.strict ∈ flags ∨ records = []) ∧ (.strict ∈ flags → issues = []) := by
        by_contra hwrong
        rw [if_neg hwrong] at hzero
        cases hzero
      exact ⟨tree, records, s, issues, rfl, hright.1, hrun, hissues, hright.2⟩
    · rintro ⟨tree', records', s', issues', hreply, hclean, hrun', hissues', hquiet⟩
      obtain ⟨rfl, rfl⟩ := Reply.program.inj hreply
      obtain rfl := Except.ok.inj (hrun'.symm.trans hrun)
      obtain rfl := Option.some.inj (hissues'.symm.trans hissues)
      exact if_pos ⟨hclean, hquiet⟩
  reported tree' records' s' hreply hrun' := by
    obtain ⟨rfl, rfl⟩ := Reply.program.inj hreply
    obtain rfl := Except.ok.inj (hrun'.symm.trans hrun)
    exact ⟨report, issues, hrender, hdelivered, hissues, hstderr⟩
  silent hnone := absurd hrun (hnone _ _ _ rfl)

variable (ht : pathOf flags = "" ∨ ∃ place, d.target (pathOf flags) = .ok place)
  (hquiet : quiet → verbose = false)

include ht hquiet

/-- What a run leaves behind that has a program to analyse. -/
theorem analyzeWith_program
    (h : Replies (parser (callOf flags) source) (.program tree records)) :
    ∃ out, analyzeWith d parser verbose (requestOf file flags) (optionsOf flags) name source =
        .ok out ∧ Accounts d quiet flags name (.program tree records) out := by
  have hcall := requestOf_call file flags
  have hanswers := hcall ▸ h.answers
  have hanswer := hcall ▸ h.answer_eq
  obtain ⟨hc, hn, hp⟩ := h.conforms
  have hne : tree ≠ .null := by
    rintro rfl
    cases hc.walked.holds.isObj
  cases hrun : analyze (optionsOf flags) tree with
  | error e =>
      obtain ⟨fault, p, rfl⟩ := hc.stops hn hp hrun
      refine (analyzeWith_refused hanswers hanswer hne hrun).imp fun out hends =>
        ⟨hends.1, .of_complains ?_ hends.2 hquiet⟩
      rintro tree' records' s hreply hrun'
      obtain ⟨rfl, -⟩ := Reply.program.inj hreply
      rw [hrun] at hrun'
      cases hrun'
  | ok s =>
      obtain ⟨⟨report, hrender⟩, issues, hissues⟩ :=
        analyze_reportable (r := requestOf file flags) hc hn hp rfl hrun
      obtain ⟨out, hout, hdelivered, hstatus, hstderr⟩ :=
        analyzeWith_analyzed hanswers hanswer hrun hrender hissues ht
      rw [requestOf_settings] at hrender
      have hnoted := h.noted_eq (requestOf file flags)
      have hstrict : (requestOf file flags).strict = decide (.strict ∈ flags) := rfl
      simp only [hstrict, decide_eq_true_eq] at hnoted hstatus
      refine ⟨out, hout, .of_analyzed hrun hrender hissues hdelivered ?_ fun hq => ?_⟩
      · rw [hstatus, hnoted]
        by_cases hmem : .strict ∈ flags <;> simp [hmem]
      · rw [hstderr (hquiet hq), hnoted, tells_iff]
        split <;> rfl

/-- What a run leaves behind, once the source text is there. -/
theorem analyzeWith_accounts (h : Replies (parser (callOf flags) source) reply) :
    ∃ out, analyzeWith d parser verbose (requestOf file flags) (optionsOf flags) name source =
        .ok out ∧ Accounts d quiet flags name reply out := by
  have hanswer := requestOf_call file flags ▸ h.answer_eq
  cases reply with
  | failure f =>
      exact (analyzeWith_failure hanswer).imp fun out hends =>
        ⟨hends.1, .of_complains nofun hends.2 hquiet⟩
  | nothing =>
      exact (analyzeWith_nothing hanswer).imp fun out hends =>
        ⟨hends.1, .of_complains nofun hends.2 hquiet⟩
  | program tree records => exact analyzeWith_program ht hquiet h

end

/-- **What every command line leaves behind.**  The words are those of a row of flags, written in
any way that a reader understands; the file can be read, and the report can be written.  Then,
whatever the parser replies, the run ends with a status, a report or none, and messages, as the
flags, the reply and the analysis have it. -/
theorem commandLine_accounts {c : Convention} {d : Disk} {parser : Parser} {source file : String}
    {log : List String} {given : List Given} {reply : Reply}
    (hlog : ∀ w ∈ log, w = "-v" ∨ w = "--verbose") (hgiven : ∀ g ∈ given, g.IsValid c)
    (hfile : IsPlain file) (hread : d.read file = .ok (some (.file source)))
    (ht : pathOf (given.map Given.flag) = "" ∨
      ∃ place, d.target (pathOf (given.map Given.flag)) = .ok place)
    (h : Replies (parser (callOf (given.map Given.flag)) source) reply) :
    ∃ out, runWords d parser (commandLine log file given) c = .ok out ∧
      Accounts d (log = []) (given.map Given.flag) (d.resolve file).text reply out := by
  rw [runWords, Invocation.of_given hlog hgiven hfile, Invocation.run, analyzeFile]
  have hinput : (requestOf file (given.map Given.flag)).input = file := rfl
  simp only [hinput, hread, bind, Except.bind, analyzeSource, requestOf_options]
  exact analyzeWith_accounts ht (fun hquiet => by rw [hquiet]; rfl) h

/-- The place of the first character. -/
def atStart : String × Tree :=
  ("loc", .obj [("start", .obj [("line", .int 1), ("column", .int 0)])])

/-- `x = 1`, as far as it stands in front of the errors. -/
def programFront : List (String × Tree) := [("type", .str "Program"), atStart]

/-- The rest of it. -/
def programRear : List (String × Tree) :=
  [("body", .arr [.obj [("type", .str "ExpressionStatement"), ("expression",
    .obj [("type", .str "AssignmentExpression"), ("operator", .str "="),
      ("left", .obj [("type", .str "Identifier"), ("name", .str "x"), atStart]),
      ("right", .obj [("type", .str "Literal"), ("value", .int 1)])])]])]

/-- The record of an error. -/
def errorRecord : Tree :=
  .obj [("description", .str "Unexpected token"), ("lineNumber", .int 1), ("column", .int 6)]

/-- `x = 1`, with an error noted in it. -/
def programNoted : Tree := Tree.noting programFront programRear [errorRecord]

/-- A disk with one file. -/
def oneFile : Disk := { directory := [], entries := [(["a.js"], .file "x = 1)")] }

/-- Two flags, one shortened and with its value attached, the other in full. -/
def twoFlags : List Given :=
  [{ flag := .ecmaVersion { groups := [['5']] }, stem := "--ecma", attached := true },
    { flag := .out "out", stem := "--out" }]

/-- What a run leaves behind that tolerates the error: the report in the file, a line for the error
and a line for the write to a name that nothing binds. -/
def notedOutcome : Outcome where
  status := 1
  stdout := ""
  stderr :=
    "ERROR /a.js:1:6: Unexpected token\n" ++
      "WARNING /a.js:1:0: [IMPLICIT_GLOBAL] " ++
        "Assignment to undeclared 'x' creates an implicit global.\n"
  files :=
    [{ path := "/out", content := "global scope (Program 1:0)\n" ++ "  - x (Variable) refs=1\n" }]

theorem oneFile_resolve : oneFile.resolve "a.js" = ["a.js"] := by
  have hsteps : stepsOf "a.js" = ["a.js"] := by cbv
  rw [Disk.resolve, hsteps]
  decide +kernel

theorem oneFile_target : oneFile.target "out" = .ok ["out"] := by
  have hsteps : stepsOf "out" = ["out"] := by cbv
  rw [Disk.target, hsteps]
  decide +kernel

/-- What the analysis of the sample finds, and so what is reported and told. -/
theorem programNoted_view :
    (analyze (optionsOf (twoFlags.map Given.flag)) programNoted).toOption.map (fun s =>
      ((Report.render s (settingsOf (twoFlags.map Given.flag))).toOption,
        s.issues? (.undeclared ∈ twoFlags.map Given.flag))) =
    some (some "global scope (Program 1:0)\n  - x (Variable) refs=1\n",
      some [{ finding := .implicitGlobal (.str "x"), position := ⟨.int 1, .int 0⟩ }]) := by
  decide +kernel

theorem eq_notedOutcome {quiet : Prop} {out : Outcome} (hquiet : quiet)
    (h : Accounts oneFile quiet (twoFlags.map Given.flag) "/a.js"
      (.program programNoted [errorRecord]) out) : out = notedOutcome := by
  have hview := programNoted_view
  cases hs : analyze (optionsOf (twoFlags.map Given.flag)) programNoted with
  | error e => rw [hs] at hview; cases hview
  | ok s =>
      rw [hs] at hview
      obtain ⟨report, issues, hrender, hdelivered, hissues, htells⟩ := h.reported _ _ s rfl hs
      simp only [Except.toOption, Option.map_some, Option.some.injEq, Prod.mk.injEq, hrender,
        hissues] at hview
      obtain ⟨rfl, rfl⟩ := hview
      have hpath : pathOf (twoFlags.map Given.flag) = "out" := by decide
      rw [hpath, Delivered, if_neg (by decide), oneFile_target] at hdelivered
      obtain ⟨place, hplace, hstdout, hfiles⟩ := hdelivered
      obtain rfl := Except.ok.inj hplace
      have hstatus : out.status = 1 := h.status.resolve_left fun hzero => by
        obtain ⟨tree, records, -, -, hreply, hclean, -⟩ := h.success.1 hzero
        obtain ⟨rfl, rfl⟩ := Reply.program.inj hreply
        exact absurd hclean (by decide)
      have hstderr : out.stderr = notedOutcome.stderr :=
        (tells_iff.1 (htells hquiet)).trans (by decide +kernel)
      cases out
      cases hstatus
      cases hstdout
      cases hstderr
      cases hfiles
      decide

/-- A run that tolerates errors reports on a program with an error in it, and fails. -/
theorem programNoted_accounts :
    let c : Convention := { keepsDashes := true, cutsLetters := true }
    let words := ["analyze", "a.js", "--ecma=5", "--out", "out"]
    let flags := twoFlags.map Given.flag
    let reply := Reply.program programNoted [errorRecord]
    commandLine [] "a.js" twoFlags = words ∧ (∀ g ∈ twoFlags, g.IsValid c) ∧ IsPlain "a.js" ∧
      oneFile.read "a.js" = .ok (some (.file "x = 1)")) ∧
      oneFile.target (pathOf flags) = .ok ["out"] ∧ Replies (.ok programNoted) reply ∧
      runWords oneFile (fun _ _ => .ok programNoted) words c = .ok notedOutcome ∧
      Accounts oneFile ([] = ([] : List String)) flags "/a.js" reply notedOutcome := by
  intro c words flags reply
  have hwords : commandLine [] "a.js" twoFlags = words := by decide
  have hvalid : ∀ g ∈ twoFlags, g.IsValid c := by decide +kernel
  have hplain : IsPlain "a.js" := by decide
  have hread : oneFile.read "a.js" = .ok (some (.file "x = 1)")) := by
    rw [Disk.read, oneFile_resolve]
    decide +kernel
  have hpath : pathOf flags = "out" := by decide
  have hreplies : Replies (.ok programNoted) reply :=
    .noted (by decide +kernel) (by decide +kernel) (by decide +kernel) (by decide +kernel)
      (by decide +kernel)
  have hrun : ∃ out, runWords oneFile (fun _ _ => .ok programNoted)
      (commandLine [] "a.js" twoFlags) c = .ok out ∧
        Accounts oneFile ([] = ([] : List String)) flags (oneFile.resolve "a.js").text reply out :=
    commandLine_accounts nofun hvalid hplain hread (.inr ⟨_, hpath ▸ oneFile_target⟩) hreplies
  have hname : (oneFile.resolve "a.js").text = "/a.js" := by
    rw [oneFile_resolve]
    decide
  rw [hwords, hname] at hrun
  obtain ⟨out, hout, haccounts⟩ := hrun
  obtain rfl := eq_notedOutcome rfl haccounts
  exact ⟨hwords, hvalid, hplain, hread, hpath ▸ oneFile_target, hreplies, hout, haccounts⟩

end LexScope.CommandLine
