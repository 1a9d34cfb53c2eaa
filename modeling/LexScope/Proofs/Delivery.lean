import LexScope.CommandLine.Run
import LexScope.Proofs.Success

/-!
# Proofs — Delivery — how a run ends, for each reply of the parser

A run that reads a source file hands it to the parser, and everything else follows from the reply.
The parser may fail, give nothing, or give a program in which it notes the errors that it recovered
from (`Answers`).

* `parse_eq`, `analyzeParsed_ok`, `analyzeParsed_error`: what is made of a reply, stage by stage.
* `analyzeWith_failure`, `analyzeWith_nothing`, `analyzeWith_refused`: without a program, or if the
  analysis stops, **a run complains and delivers nothing.**
* `analyzeWith_analyzed`: if the analysis returns, **a run delivers its report and tells the parse
  errors and then the issues.**
-/

namespace LexScope.Grammar

open Walk in
/-- What stops the analysis of a program is an error of the analysis, and none of the run. -/
theorem Conforms.stops {o : Options} {tree : Tree} {e : Error} (hc : Conforms tree)
    (hn : tree.TextNames) (hp : tree.Presentable) (h : analyze o tree = .error e) :
    ∃ fault p, e = .analysis fault p := by
  have hobject : tree.isObj = true := hc.walked.holds.isObj
  have hrun := analyze_of_faults hobject hn (canHappen_plan hc (.ofOptions o))
  cases hfaults : faults (plan (.ofOptions o) (.root tree)) with
  | nil =>
      rw [hfaults] at hrun
      obtain ⟨s, hs⟩ := hrun
      rw [h] at hs
      cases hs
  | cons first rest =>
      rw [hfaults] at hrun
      obtain rfl := Except.error.inj (h.symm.trans hrun)
      have hfirst : e ∈ faults (plan (.ofOptions o) (.root tree)) := hfaults ▸ List.mem_cons_self
      rw [faults_plan hc] at hfirst
      obtain ⟨m, hm, rfl⟩ := List.mem_map.1 hfirst
      have hmem := (List.mem_filter.1 hm).1
      have hshown : m.value.Presentable :=
        (Tree.hereditary_allObjects Tree.isPresentable).items
          ((Tree.hereditary_allObjects Tree.isPresentable).get (n := .root tree) hp "body") hmem
      obtain ⟨p, hon, -⟩ := Fault.on_eq hshown
        (leaves_of_mem_body (g := .ofOptions o) hc hmem).1.isObj _
      exact ⟨_, p, hon⟩

end LexScope.Grammar

namespace LexScope.CommandLine

/-! ### Replies -/

/-- The errors noted in a tree, if there are any, are a list of objects. -/
def HasRecords (tree : Tree) : Prop :=
  tree.get "errors" = .null ∨
    ∃ records, tree.get "errors" = .arr records ∧ ∀ t ∈ records, t.isObj = true

/-- What a parser may reply: a failure, nothing, or a program of the grammar whose names are texts,
and in which positions and kinds can be read. -/
inductive Answers : Except ParserFailure Tree → Prop where
  | failure (f : ParserFailure) : Answers (.error f)
  | nothing : Answers (.ok .null)
  | program {tree : Tree} (conforms : Grammar.Conforms tree) (named : tree.TextNames)
      (shown : tree.Presentable) (records : HasRecords tree) : Answers (.ok tree)

/-- What a record of an error says. -/
def errorOf (record : Tree) : ParseError :=
  { description := record.get "description", line := record.get "lineNumber"
    column := record.get "column" }

namespace AnalyzeRequest

/-- The errors that a run reads in a tree.  A strict run reads none. -/
def noted (r : AnalyzeRequest) (tree : Tree) : List ParseError :=
  if r.strict then []
  else
    match tree.get "errors" with
    | .arr records => records.map errorOf
    | _ => []

/-- What the parser is asked for. -/
def call (r : AnalyzeRequest) (o : Options) : ParserCall :=
  { sourceType := o.sourceType, tolerant := .bool !r.strict }

end AnalyzeRequest

variable {parser : Parser} {source name : String} {r : AnalyzeRequest} {o : Options} {tree : Tree}
  {d : Disk} {verbose : Bool} {s : Store} {issues : List Issue} {f : ParserFailure} {e : Error}

theorem mapM_ofRecord? {records : List Tree} (h : ∀ t ∈ records, t.isObj = true) (path : Path)
    (i : Nat) : (Node.itemsFrom path i records).mapM (fun n => ParseError.ofRecord? n.value) =
      some (records.map errorOf) := by
  induction records generalizing i with
  | nil => rfl
  | cons t records ih =>
      obtain ⟨ht, hrest⟩ := List.forall_mem_cons.1 h
      have hrecord : ParseError.ofRecord? t = some (errorOf t) := if_pos ht
      simp [Node.itemsFrom, List.mapM_cons, hrecord, ih hrest]

/-- The items of a list of errors are offered one after the other, also if there are none. -/
theorem sequence?_records {n : Node} {records : List Tree} (h : n.value = .arr records) :
    n.sequence? = some (Node.itemsFrom n.path 0 records) := by
  rw [Node.sequence?, h]
  cases records <;> rfl

/-- The errors noted in a tree are read where errors are tolerated. -/
theorem recovered_eq (h : HasRecords tree) :
    ((r.pipeline o name).parseRequest o).recovered tree = .ok (r.noted tree) := by
  have hrequest : ((r.pipeline o name).parseRequest o).tolerant = .bool !r.strict := rfl
  rw [ParseRequest.recovered, hrequest, AnalyzeRequest.noted]
  cases hstrict : r.strict with
  | true => rfl
  | false =>
      rcases h with hnull | ⟨records, hrecords, hall⟩
      · have hvalue : ((Node.root tree).get "errors").value = .null := hnull
        have hnone : ((Node.root tree).get "errors").sequence? = some [] := by
          rw [Node.sequence?, hvalue]
          rfl
        rw [hnone, hnull]
        cases tree.isObj <;> rfl
      · have hobject : tree.isObj = true := by
          cases tree with
          | obj members => rfl
          | _ => cases hrecords
        have hvalue : ((Node.root tree).get "errors").value = .arr records := hrecords
        rw [sequence?_records hvalue, hobject, hrecords]
        simp [Tree.truthy, mapM_ofRecord? hall, wellFormed]

/-! ### The stages of a run -/

/-- **What is made of a reply.**  A failure is an error of a strict run, and the only error that any
other run knows of. -/
theorem parse_eq (name : String) (h : Answers (parser (r.call o) source)) :
    parse parser source ((r.pipeline o name).parseRequest o) =
      let parsed (tree : Tree) (errors : List ParseError) : Parsed :=
        { tree, digest := Digest.sha256 source, name := .str name, sourceType := o.sourceType
          errors }
      match parser (r.call o) source with
      | .ok tree => .ok (parsed tree (r.noted tree))
      | .error f =>
          if r.strict then .error (.syntaxError f.message)
          else .ok (parsed .null [.ofFailure f]) := by
  have hcall : ((r.pipeline o name).parseRequest o).call = .ok (r.call o) := by
    rw [ParseRequest.call]
    cases ht : o.sourceType <;> simp [Pipeline.Request.parseRequest, ht, SourceType.text,
      SourceType.ofTree?, AnalyzeRequest.call, AnalyzeRequest.pipeline]
  have htolerant : ((r.pipeline o name).parseRequest o).tolerant = .bool !r.strict := rfl
  rw [parse, hcall]
  show Except.bind (.ok (r.call o)) _ = _
  simp only [Except.bind]
  cases hreply : parser (r.call o) source with
  | error f =>
      rw [htolerant]
      cases r.strict <;> rfl
  | ok tree =>
      have hrecords : HasRecords tree := by
        rw [hreply] at h
        cases h with
        | nothing => exact .inl rfl
        | program _ _ _ hrecords => exact hrecords
      simp only [recovered_eq hrecords]
      rfl

/-- An analysis that returns a store whose issues can be listed is a stage that succeeds. -/
theorem analyzeParsed_ok {request : Pipeline.Request} {p : Parsed} (ha : request.analyzes = true)
    (ht : p.hasTree = true) (h : analyze o p.tree = .ok s)
    (hi : s.issues? request.undeclared = some issues) :
    ∃ log, Pipeline.analyzeParsed request o p = (log, .ok (some s, issues)) := by
  rw [analyze, Action.finish] at h
  rw [Pipeline.analyzeParsed, ha, ht]
  split at h
  · rename_i s' hrun
    obtain rfl := Except.ok.inj h
    simp [hrun, hi, wellFormed, Except.map]
  · cases h

/-- An analysis that stops is a stage that fails. -/
theorem analyzeParsed_error {request : Pipeline.Request} {p : Parsed}
    (ha : request.analyzes = true) (ht : p.hasTree = true) (h : analyze o p.tree = .error e) :
    ∃ log, Pipeline.analyzeParsed request o p = (log, .error e) := by
  rw [analyze, Action.finish] at h
  rw [Pipeline.analyzeParsed, ha, ht]
  split at h
  · cases h
  · rename_i e' s' hrun
    obtain rfl := Except.error.inj h
    simp [hrun]

section

variable {p : Parsed}

/-- A source text that cannot be parsed ends a run. -/
theorem run_unparsed
    (h : parse parser source ((r.pipeline o name).parseRequest o) = .error e) :
    (Pipeline.run parser source (r.pipeline o name)).result = .error e := by
  have hoptions : (r.pipeline o name).resolvedOptions = .ok o := rfl
  simp only [Pipeline.run, hoptions, bind, Except.bind, h]

/-- What a run finds once the source text is parsed. -/
theorem run_parsed {log : List LogRecord} {found : Except Error (Option Store × List Issue)}
    (h : parse parser source ((r.pipeline o name).parseRequest o) = .ok p)
    (hfound : Pipeline.analyzeParsed (r.pipeline o name) o p = (log, found)) :
    (Pipeline.run parser source (r.pipeline o name)).result =
      found.map fun found => { parsed := p, store := found.1, issues := found.2, files := [] } := by
  have hoptions : (r.pipeline o name).resolvedOptions = .ok o := rfl
  have hkeep : Pipeline.keep (r.pipeline o name) p = ([], []) := rfl
  simp only [Pipeline.run, hoptions, bind, Except.bind, h, pure, Except.pure, hfound]
  cases found with
  | error e => rfl
  | ok found => simp only [hkeep]; rfl

end

/-! ### What an analysis of a program comes to -/

/-- What the analysis of a program returns can be reported as a request asks for it. -/
theorem analyze_reportable (hc : Grammar.Conforms tree) (hn : tree.TextNames)
    (hp : tree.Presentable) (hformat : r.format.isSome = true) (h : analyze o tree = .ok s) :
    (∃ report, Report.render s r.settings = .ok report) ∧
      ∃ issues, s.issues? r.undeclared = some issues := by
  have hshown := hc.reportable hn hp h
  obtain ⟨format, hchosen⟩ := Option.isSome_iff_exists.1 hformat
  have hnamed : Report.Format.ofTree? r.settings.format = some format := by
    rw [AnalyzeRequest.settings, hchosen]
    cases format <;> rfl
  exact ⟨hshown.render_total hnamed, Option.isSome_iff_exists.1
    ((Walk.analyze_finished Tree.hereditary_true trivial h).listed hshown.readable)⟩

/-! ### How a run ends -/

/-- A run that has nothing to report says so, on the error stream only. -/
structure Complains (verbose : Bool) (out : Outcome) : Prop where
  status : out.status = 1
  stdout : out.stdout = ""
  files : out.files = []
  stderr : verbose = false → ∃ rest, out.stderr = "ERROR: " ++ rest

/-- A report is written to the file at a path, or else to the output, and to nothing else. -/
def Delivered (d : Disk) (path report : String) (out : Outcome) : Prop :=
  if path = "" then out.stdout = report ∧ out.files = []
  else ∃ place, d.target path = .ok place ∧ out.stdout = "" ∧
    out.files = [{ path := place.text, content := report }]

theorem logText_quiet {log : List LogRecord} (h : verbose = false) : logText verbose log = "" := by
  rw [h]
  rfl

theorem noTree_eq (errors : List ParseError) : ∃ rest, noTree errors = "ERROR: " ++ rest := by
  have hhead : "ERROR: Parsing failed; no AST produced.\n" =
      "ERROR: " ++ "Parsing failed; no AST produced.\n" := by decide +kernel
  exact ⟨_, (congrArg (· ++ _) hhead).trans String.append_assoc⟩

/-- Every message of a failure starts in one way. -/
theorem failure?_eq {message : String} (h : failure? e = some message) :
    ∃ rest, message = "ERROR: " ++ rest := by
  unfold failure? at h
  split at h
  · cases h
  · rename_i text
    refine ⟨"Parsing failed: " ++ text ++ "\n", ?_⟩
    rw [← Option.some.inj h, ← String.append_assoc, ← String.append_assoc]
    rfl
  · rename_i fault p
    refine ⟨"Scope analysis failed: " ++ (Error.analysis fault p).message ++ "\n", ?_⟩
    rw [← Option.some.inj h, ← String.append_assoc, ← String.append_assoc]
    rfl
  · exact ⟨e.message ++ "\n", by rw [← Option.some.inj h, String.append_assoc]⟩

/-- A message that starts as it should is a complaint. -/
theorem complains_of_eq {log message : String} (hlog : verbose = false → log = "")
    (h : ∃ rest, message = "ERROR: " ++ rest) :
    Complains verbose { status := 1, stderr := log ++ message } := by
  obtain ⟨rest, hrest⟩ := h
  refine ⟨rfl, rfl, rfl, fun hv => ⟨rest, ?_⟩⟩
  rw [hlog hv, ← hrest]
  exact String.empty_append

/-- An error that is told ends a run with a complaint. -/
theorem stopped_complains {log message : String} (hlog : verbose = false → log = "")
    (h : failure? e = some message) :
    ∃ out, stopped log e = .ok out ∧ Complains verbose out :=
  ⟨_, by rw [stopped, h], complains_of_eq hlog (failure?_eq h)⟩

/-- A report that can be written is delivered, and nothing else changes. -/
theorem deliver_ok (ht : r.out = "" ∨ ∃ place, d.target r.out = .ok place) (report : String)
    (out : Outcome) (hstdout : out.stdout = "") (hfiles : out.files = []) :
    ∃ out', deliver d r report out = .ok out' ∧ Delivered d r.out report out' ∧
      out'.status = out.status ∧ out'.stderr = out.stderr := by
  by_cases hname : r.out = ""
  · refine ⟨{ out with stdout := report }, by rw [deliver, if_pos hname], ?_, rfl, rfl⟩
    rw [Delivered, if_pos hname]
    exact ⟨rfl, hfiles⟩
  · obtain ⟨place, hplace⟩ := ht.resolve_left hname
    refine ⟨{ out with files := [{ path := place.text, content := report }] }, ?_, ?_, rfl, rfl⟩
    · rw [deliver, if_neg hname, hplace]
      rfl
    · rw [Delivered, if_neg hname]
      exact ⟨place, hplace, hstdout, rfl⟩

/-- Where the parser fails, a run complains, whether it tolerates errors or not. -/
theorem analyzeWith_failure (hreply : parser (r.call o) source = .error f) :
    ∃ out, analyzeWith d parser verbose r o name source = .ok out ∧ Complains verbose out := by
  have hparse := parse_eq name (hreply ▸ Answers.failure f)
  rw [hreply] at hparse
  cases hstrict : r.strict with
  | true =>
      simp only [hstrict, if_true] at hparse
      simp only [analyzeWith, run_unparsed hparse]
      exact stopped_complains logText_quiet rfl
  | false =>
      simp only [hstrict, Bool.false_eq_true, if_false] at hparse
      simp only [analyzeWith, run_parsed hparse (by rfl), Except.map]
      exact ⟨_, rfl, complains_of_eq logText_quiet (noTree_eq _)⟩

/-- Where the parser gives nothing, a run complains. -/
theorem analyzeWith_nothing (hreply : parser (r.call o) source = .ok .null) :
    ∃ out, analyzeWith d parser verbose r o name source = .ok out ∧ Complains verbose out := by
  have hparse := parse_eq name (hreply ▸ Answers.nothing)
  rw [hreply] at hparse
  simp only [analyzeWith, run_parsed hparse (by rfl), Except.map]
  exact ⟨_, rfl, complains_of_eq logText_quiet (noTree_eq _)⟩

/-- Where the analysis stops, a run complains. -/
theorem analyzeWith_refused {fault : Fault} {p : Position}
    (h : Answers (parser (r.call o) source)) (hreply : parser (r.call o) source = .ok tree)
    (hne : tree ≠ .null) (hrun : analyze o tree = .error (.analysis fault p)) :
    ∃ out, analyzeWith d parser verbose r o name source = .ok out ∧ Complains verbose out := by
  have hparse := parse_eq name h
  rw [hreply] at hparse
  obtain ⟨log, hlog⟩ := analyzeParsed_error (rfl : (r.pipeline o name).analyzes = true)
    (p := ⟨tree, Digest.sha256 source, .str name, o.sourceType, r.noted tree⟩)
    (decide_eq_true hne) hrun
  simp only [analyzeWith, run_parsed hparse hlog, Except.map]
  exact stopped_complains logText_quiet rfl

/-- Where the analysis returns, a run delivers a report and tells what is wrong. -/
theorem analyzeWith_analyzed {report : String} (h : Answers (parser (r.call o) source))
    (hreply : parser (r.call o) source = .ok tree) (hrun : analyze o tree = .ok s)
    (hrender : Report.render s r.settings = .ok report)
    (hissues : s.issues? r.undeclared = some issues)
    (ht : r.out = "" ∨ ∃ place, d.target r.out = .ok place) :
    ∃ out, analyzeWith d parser verbose r o name source = .ok out ∧ Delivered d r.out report out ∧
      out.status = (if r.noted tree = [] ∧ (r.strict = true → issues = []) then 0 else 1) ∧
      (verbose = false → out.stderr = String.join ((r.noted tree).map (errorLine name)) ++
        String.join (issues.map (warningLine name))) := by
  have hparse := parse_eq name h
  rw [hreply] at hparse
  have hne : tree ≠ .null := by
    rintro rfl
    cases hrun
  obtain ⟨log, hlog⟩ := analyzeParsed_ok (rfl : (r.pipeline o name).analyzes = true)
    (p := ⟨tree, Digest.sha256 source, .str name, o.sourceType, r.noted tree⟩)
    (decide_eq_true hne) hrun hissues
  simp only [analyzeWith, run_parsed hparse hlog, Except.map, hrender, bind, Except.bind]
  obtain ⟨out, hout, hdelivered, hstatus, hstderr⟩ := deliver_ok ht report
    { status := statusOf r _, stderr := _ } rfl rfl
  refine ⟨out, hout, hdelivered, ?_, fun hv => ?_⟩
  · rw [hstatus, statusOf]
    cases r.noted tree <;> cases r.strict <;> cases issues <;> simp
  · rw [hstderr, logText_quiet hv]
    exact String.empty_append

end LexScope.CommandLine
