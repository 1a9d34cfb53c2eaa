import LexScope.Proofs.Whereabouts
import LexScope.Analyze

/-!
# Proofs — Moment — a walk, one operation at a time

A walk is a run of a machine.  Its *moments* are the scopes it is in, innermost first, each with the
events still to happen in it, and the store (`Moment`).  A step carries out at most one operation,
which labels it (`Step`); a walk stops where the next operation fails (`Fails`).

* `Step.resume`: from every moment of a walk the rest of it comes to what the whole walk comes to,
  so the moments are those of the walk and of no other.
* `analyze_eq`: an analysis is the walk from `Moment.start`.
-/

namespace LexScope.Walk

open Store

/-- A scope that a walk is in, and the events still to happen in it. -/
structure Frame where
  scope : Option ScopeId
  todo : List Event

/-- The scopes a walk is in, innermost first, and the store. -/
structure Moment where
  frames : List Frame
  store : Store

/-- The current scope. -/
def Moment.current (m : Moment) : Option ScopeId := m.frames.head?.bind (·.scope)

/-- The scope a target means, if the current one is there. -/
def Target.scope? (s : Store) (current : ScopeId) : Target → Option ScopeId
  | .here => some current
  | .hoisted => s.variableScope? current

/-- The operation that an event is, for those that are just one. -/
def Event.operation? (s : Store) (current : ScopeId) : Event → Option Operation
  | .define target n d => (target.scope? s current).map fun i => .define i n d
  | .refer u => (s.scopeAt? current).map fun a =>
      .refer current (if a.strict then { u with candidate := none } else u)
  | .callEval => (s.variableScope? current).map .noteEval
  | .useThis => (s.variableScope? current).map .noteThis
  | _ => none

/-- What an event that is just one operation does in the scope `c`. -/
inductive Event.Does (s : Store) (c : ScopeId) : Event → Operation → Outcome → Store → Prop where
  | define {target : Target} {n : Node} {d : Definition} {i : ScopeId} {w : Option VariableId}
      {t : Store} (hi : target.scope? s c = some i)
      (h : (Action.define i n d).outcome s = (.ok w, t)) :
      Does s c (.define target n d) (.define i n d) (.bound w) t
  | refer {u : Use} {a : Scope} {r : Option ReferenceId} {t : Store}
      (ha : s.scopeAt? c = some a)
      (h : (Action.refer c (if a.strict then { u with candidate := none } else u)).outcome s =
        (.ok r, t)) :
      Does s c (.refer u) (.refer c (if a.strict then { u with candidate := none } else u))
        (.made r) t
  | callEval {i : ScopeId} {a : Scope} (hi : s.variableScope? c = some i)
      (ha : s.scopeAt? i = some a) : Does s c .callEval (.noteEval i) .done (s.noteEval i)
  | useThis {i : ScopeId} {a : Scope} (hi : s.variableScope? c = some i)
      (ha : s.scopeAt? i = some a) : Does s c .useThis (.noteThis i) .done (s.noteThis i)

theorem Event.does {s t : Store} {c : ScopeId} {e : Event} {o : Operation} {out : Outcome}
    (he : e.operation? s c = some o) (hop : o.applyTo s = (.ok out, t)) : e.Does s c o out t := by
  have happly : o.apply.outcome s = (.ok out, t) := hop
  cases e with
  | define target n d =>
      obtain ⟨i, hi, rfl⟩ := Option.map_eq_some_iff.1 he
      obtain ⟨w, rfl, h⟩ := Action.bind_pure_ok_iff.1 happly
      exact .define hi h
  | refer u =>
      obtain ⟨a, ha, rfl⟩ := Option.map_eq_some_iff.1 he
      obtain ⟨r, rfl, h⟩ := Action.bind_pure_ok_iff.1 happly
      exact .refer ha h
  | callEval =>
      obtain ⟨i, hi, rfl⟩ := Option.map_eq_some_iff.1 he
      obtain ⟨_, rfl, h⟩ := Action.bind_pure_ok_iff.1 happly
      obtain ⟨⟨a, ha⟩, rfl⟩ := Action.noteEval_ok_iff.1 h
      exact .callEval hi ha
  | useThis =>
      obtain ⟨i, hi, rfl⟩ := Option.map_eq_some_iff.1 he
      obtain ⟨_, rfl, h⟩ := Action.bind_pure_ok_iff.1 happly
      obtain ⟨⟨a, ha⟩, rfl⟩ := Action.noteThis_ok_iff.1 h
      exact .useThis hi ha
  | _ => cases he

/-- Whether an event is just one operation. -/
def Event.IsOperation : Event → Prop
  | .define _ _ _ | .refer _ | .callEval | .useThis => True
  | _ => False

/-! ### Steps -/

/-- One step of a walk, and the operation it carries out. -/
inductive Step : Moment → Option Operation → Moment → Prop where
  | act {c : ScopeId} {e : Event} {todo : List Event} {rest : List Frame} {s t : Store}
      {op : Operation} {out : Outcome} (he : e.operation? s c = some op)
      (h : op.applyTo s = (.ok out, t)) :
      Step ⟨⟨some c, e :: todo⟩ :: rest, s⟩ (some op) ⟨⟨some c, todo⟩ :: rest, t⟩
  | enter {c : Option ScopeId} {kind : ScopeKind} {n : Node} {inside todo : List Event}
      {rest : List Frame} {s t : Store} {i : ScopeId}
      (h : (Operation.enter kind n c).applyTo s = (.ok (.entered i), t)) :
      Step ⟨⟨c, .within kind n inside :: todo⟩ :: rest, s⟩ (some (.enter kind n c))
        ⟨⟨some i, inside⟩ :: ⟨c, todo⟩ :: rest, t⟩
  | leave {i : ScopeId} {f : Frame} {rest : List Frame} {s t : Store} {out : Outcome}
      (h : (Operation.close i).applyTo s = (.ok out, t)) :
      Step ⟨⟨some i, []⟩ :: f :: rest, s⟩ (some (.close i)) ⟨f :: rest, t⟩
  | needScope {c : ScopeId} {todo : List Event} {rest : List Frame} {s : Store} :
      Step ⟨⟨some c, .needScope :: todo⟩ :: rest, s⟩ none ⟨⟨some c, todo⟩ :: rest, s⟩
  | phase {c : Option ScopeId} {p : Phase} {todo : List Event} {rest : List Frame} {s : Store} :
      Step ⟨⟨c, .phase p :: todo⟩ :: rest, s⟩ none ⟨⟨c, todo⟩ :: rest, s.record (.phase p)⟩
  | keep {c : Option ScopeId} {n : Node} {todo : List Event} {rest : List Frame} {s : Store}
      (h : ∀ i, c = some i → ∃ a, s.scopeAt? i = some a ∧ a.block.same n = false) :
      Step ⟨⟨c, .closeOwned n :: todo⟩ :: rest, s⟩ none ⟨⟨c, todo⟩ :: rest, s⟩

/-- The operation that a walk carries out next, or tries to. -/
inductive Attempts : Moment → Operation → Prop where
  | act {c : ScopeId} {e : Event} {todo : List Event} {rest : List Frame} {s : Store}
      {op : Operation} (he : e.operation? s c = some op) :
      Attempts ⟨⟨some c, e :: todo⟩ :: rest, s⟩ op
  | enter {c : Option ScopeId} {kind : ScopeKind} {n : Node} {inside todo : List Event}
      {rest : List Frame} {s : Store} :
      Attempts ⟨⟨c, .within kind n inside :: todo⟩ :: rest, s⟩ (.enter kind n c)
  | leave {i : ScopeId} {f : Frame} {rest : List Frame} {s : Store} :
      Attempts ⟨⟨some i, []⟩ :: f :: rest, s⟩ (.close i)

theorem Step.attempts {m m' : Moment} {op : Operation} (h : Step m (some op) m') :
    Attempts m op := by
  cases h with
  | act he _ => exact .act he
  | enter _ => exact .enter
  | leave _ => exact .leave

/-- What a step does to the store: an operation, or nothing but at most an entry in the log. -/
theorem Step.store_cases {m m' : Moment} {op : Option Operation} (h : Step m op m') :
    (∃ o out, op = some o ∧ Attempts m o ∧ o.applyTo m.store = (.ok out, m'.store)) ∨
      op = none ∧ m'.current = m.current ∧
        (m'.store = m.store ∨ ∃ entry, m'.store = m.store.record entry) := by
  cases h with
  | act he h => exact .inl ⟨_, _, rfl, .act he, h⟩
  | enter h => exact .inl ⟨_, _, rfl, .enter, h⟩
  | leave h => exact .inl ⟨_, _, rfl, .leave, h⟩
  | needScope => exact .inr ⟨rfl, rfl, .inl rfl⟩
  | phase => exact .inr ⟨rfl, rfl, .inr ⟨_, rfl⟩⟩
  | keep _ => exact .inr ⟨rfl, rfl, .inl rfl⟩

/-- A walk stops with an error. -/
inductive Fails : Moment → Error → Prop where
  | event {c : Option ScopeId} {e : Event} {todo : List Event} {rest : List Frame} {s t : Store}
      {err : Error} (hw : ∀ kind n inside, e ≠ .within kind n inside)
      (h : (e.run c).outcome s = (.error err, t)) : Fails ⟨⟨c, e :: todo⟩ :: rest, s⟩ err
  | enter {c : Option ScopeId} {kind : ScopeKind} {n : Node} {inside todo : List Event}
      {rest : List Frame} {s t : Store} {err : Error}
      (h : (Operation.enter kind n c).applyTo s = (.error err, t)) :
      Fails ⟨⟨c, .within kind n inside :: todo⟩ :: rest, s⟩ err
  | leave {i : ScopeId} {f : Frame} {rest : List Frame} {s t : Store} {err : Error}
      (h : (Operation.close i).applyTo s = (.error err, t)) :
      Fails ⟨⟨some i, []⟩ :: f :: rest, s⟩ err

/-- Several steps and the operations they carry out. -/
inductive Steps : Moment → List Operation → Moment → Prop where
  | refl (m : Moment) : Steps m [] m
  | more {m m₁ m' : Moment} {op : Option Operation} {ops : List Operation} (h : Step m op m₁)
      (t : Steps m₁ ops m') : Steps m (op.toList ++ ops) m'

/-! ### What a step does is what its event does -/

theorem Target.outcome_resolve {s : Store} {c j : ScopeId} {target : Target}
    (h : target.scope? s c = some j) : (target.resolve c).outcome s = (.ok j, s) := by
  cases target with
  | here => rw [← Option.some.inj h]; rfl
  | hoisted =>
      obtain ⟨a, ha, rfl⟩ := Option.map_eq_some_iff.1 h
      rw [Target.resolve, Action.outcome_bind_of_ok (Action.scopeAt_ok_iff.2 ⟨ha, rfl⟩)]
      rfl

/-- What is done in the scope that a target means. -/
theorem Target.outcome_located {s : Store} {c j : ScopeId} (target : Target)
    {f : ScopeId → Action Unit} (h : target.scope? s c = some j) :
    (do f (← target.resolve (← Action.need (some c)))).outcome s = (f j).outcome s := by
  rw [Action.outcome_bind_of_ok (Action.outcome_need c s),
    Action.outcome_bind_of_ok (Target.outcome_resolve h)]

/-- An event that is an operation comes to what the operation comes to. -/
theorem Event.outcome_run {s : Store} {c : ScopeId} {e : Event} {op : Operation}
    (h : e.operation? s c = some op) :
    (e.run (some c)).outcome s = ((op.applyTo s).1.map fun _ => (), (op.applyTo s).2) := by
  have happly : op.applyTo s = op.apply.outcome s := rfl
  cases e with
  | define target n d =>
      obtain ⟨j, hj, rfl⟩ := Option.map_eq_some_iff.1 h
      rw [Event.run, Target.outcome_located target hj, Action.outcome_discard, happly,
        Operation.apply, Action.outcome_bind_pure]
      rcases (Action.define j n d).outcome s with ⟨_ | w, t⟩ <;> rfl
  | refer u =>
      obtain ⟨a, ha, rfl⟩ := Option.map_eq_some_iff.1 h
      rw [Event.run, Action.outcome_bind_of_ok (Action.outcome_need c s), referFrom,
        Action.outcome_bind_of_ok (Action.scopeAt_ok_iff.2 ⟨ha, rfl⟩), Action.outcome_discard,
        happly, Operation.apply, Action.outcome_bind_pure]
      rcases (Action.refer c _).outcome s with ⟨_ | w, t⟩ <;> rfl
  | callEval =>
      obtain ⟨j, hj, rfl⟩ := Option.map_eq_some_iff.1 h
      rw [Event.run, Target.outcome_located .hoisted hj, happly, Operation.apply,
        Action.outcome_bind_pure]
      rcases (Action.noteEval j).outcome s with ⟨_ | w, t⟩ <;> rfl
  | useThis =>
      obtain ⟨j, hj, rfl⟩ := Option.map_eq_some_iff.1 h
      rw [Event.run, Target.outcome_located .hoisted hj, happly, Operation.apply,
        Action.outcome_bind_pure]
      rcases (Action.noteThis j).outcome s with ⟨_ | w, t⟩ <;> rfl
  | _ => cases h

/-! ### The rest of a walk -/

/-- What is still to be done at a moment: the events of the innermost scope, its end, and the rest
of the scopes around it. -/
def resume : List Frame → Action Unit
  | [] => pure ()
  | [f] => runAll f.todo f.scope
  | f :: g :: rest => do
      runAll f.todo f.scope
      discard (Action.close (← Action.need f.scope))
      resume (g :: rest)

theorem resume_cons (c : Option ScopeId) (e : Event) (todo : List Event) (rest : List Frame)
    (s : Store) : (resume (⟨c, e :: todo⟩ :: rest)).outcome s =
      (do e.run c; resume (⟨c, todo⟩ :: rest)).outcome s := by
  cases rest with
  | nil => rfl
  | cons g rest =>
      rw [resume, runAll]
      simp only [Action.outcome_bind]
      rcases (e.run c).outcome s with ⟨_ | _, t⟩
      · rfl
      · rw [resume]
        simp only [Action.outcome_bind]

theorem resume_leave (i : ScopeId) (f : Frame) (rest : List Frame) (s : Store) :
    (resume (⟨some i, []⟩ :: f :: rest)).outcome s =
      (do discard (Action.close i); resume (f :: rest)).outcome s := by
  rw [resume, runAll, Action.outcome_bind_of_ok (Action.outcome_pure () s),
    Action.outcome_bind_of_ok (Action.outcome_need i s)]

theorem Event.outcome_within (kind : ScopeKind) (n : Node) (inside : List Event)
    (c : Option ScopeId) (s : Store) :
    (Event.run (.within kind n inside) c).outcome s =
      (do let i ← Action.enter kind n c
          runAll inside (some i)
          discard (Action.close i)).outcome s := by
  rw [Event.run]

theorem Event.outcome_keep {n : Node} {c : Option ScopeId} {s : Store}
    (h : ∀ i, c = some i → ∃ a, s.scopeAt? i = some a ∧ a.block.same n = false) :
    (Event.run (.closeOwned n) c).outcome s = (.ok (), s) := by
  rw [Event.run, Action.closeOwned, Action.outcome_bind_of_ok (Action.outcome_get s)]
  cases c with
  | none => cases s.scopes.size <;> rfl
  | some i =>
      obtain ⟨a, ha, hb⟩ := h i rfl
      obtain ⟨k, hk⟩ := Nat.exists_eq_succ_of_ne_zero (Nat.ne_zero_of_lt (scopeAt?_lt ha))
      rw [hk, Action.closeOwnedFrom, Action.outcome_bind_of_ok (Action.scopeAt_ok_iff.2 ⟨ha, rfl⟩),
        hb]
      rfl

/-- **A step changes nothing about what the walk comes to.** -/
theorem Step.resume {m m' : Moment} {op : Option Operation} (h : Step m op m') :
    (Walk.resume m.frames).outcome m.store = (Walk.resume m'.frames).outcome m'.store := by
  cases h with
  | @act c e todo rest s t op out he h =>
      rw [resume_cons, Action.outcome_bind_of_ok (a := ()) (by rw [Event.outcome_run he, h]; rfl)]
  | @enter c kind n inside todo rest s t i h =>
      -- The new frame does what was inside the event, and then the scope is closed.
      rw [resume_cons, Walk.resume, Action.outcome_bind, Event.outcome_within,
        Action.outcome_bind_of_ok (Operation.applyTo_enter_ok.1 h)]
      simp only [Action.outcome_bind]
      rcases (runAll inside (some i)).outcome t with ⟨_ | _, u⟩ <;> rfl
  | leave h =>
      obtain ⟨up, -, h⟩ := Operation.applyTo_close_ok.1 h
      rw [resume_leave, Action.outcome_bind_of_ok (a := ()) (Action.discard_ok_iff.2 ⟨up, h⟩)]
  | @needScope c todo rest s =>
      have hrun : (Event.run .needScope (some c)).outcome s = (.ok (), s) := rfl
      rw [resume_cons, Action.outcome_bind_of_ok hrun]
  | @phase c p todo rest s =>
      have hrun : (Event.run (.phase p) c).outcome s = (.ok (), s.record (.phase p)) := rfl
      rw [resume_cons, Action.outcome_bind_of_ok hrun]
  | keep h => rw [resume_cons, Action.outcome_bind_of_ok (Event.outcome_keep h)]

theorem Steps.resume {m m' : Moment} {ops : List Operation} (h : Steps m ops m') :
    (Walk.resume m.frames).outcome m.store = (Walk.resume m'.frames).outcome m'.store := by
  induction h with
  | refl => rfl
  | more h _ ih => exact h.resume.trans ih

/-- A walk that stops comes to the error it stops with. -/
theorem Fails.resume {m : Moment} {e : Error} (h : Fails m e) :
    ∃ t, (Walk.resume m.frames).outcome m.store = (.error e, t) := by
  cases h with
  | event hw h => exact ⟨_, by rw [resume_cons, Action.outcome_bind_of_error h]⟩
  | @enter c kind n inside todo rest s t e h =>
      refine ⟨t, ?_⟩
      rw [resume_cons, Action.outcome_bind_of_error]
      rw [Event.outcome_within,
        Action.outcome_bind_of_error (Operation.applyTo_enter_error.1 h)]
  | @leave i f rest s t e h =>
      refine ⟨t, ?_⟩
      rw [resume_leave, Action.outcome_bind_of_error
        (Action.discard_error_iff.2 (Operation.applyTo_close_error.1 h))]

/-! ### An analysis as a walk -/

/-- The moment at which the walk over a program begins. -/
def Moment.start (o : Options) (tree : Tree) : Moment :=
  ⟨[⟨none, plan (.ofOptions o) (.root tree)⟩],
    (Store.new o).record (.analyzing (tree.get "type") o.ecmaVersion o.sourceType)⟩

/-- A walk in no scope with nothing left to do is over. -/
def Moment.Over (m : Moment) : Prop := m.frames = [⟨none, []⟩]

theorem outcome_analysis {o : Options} {tree : Tree} (h : tree.isObj = true) :
    (analysis tree).outcome (.new o) =
      (do resume (Moment.start o tree).frames
          Action.record (.analyzed (← get).scopes.size)).outcome (Moment.start o tree).store := by
  rw [analysis, h]
  rfl

theorem finish_eq {α : Type} (x : Action α) (s : Store) :
    x.finish s = match x.outcome s with
      | (.ok _, t) => .ok t
      | (.error e, _) => .error e := by
  unfold Action.finish Action.outcome
  rcases (x.run s).run with ⟨_ | a, t⟩ <;> rfl

/-- What a walk over a program comes to is what the analysis comes to. -/
theorem analyze_eq {o : Options} {tree : Tree} (h : tree.isObj = true) :
    analyze o tree =
      match (resume (Moment.start o tree).frames).outcome (Moment.start o tree).store with
      | (.ok _, t) => .ok (t.record (.analyzed t.scopes.size))
      | (.error e, _) => .error e := by
  rw [analyze, finish_eq, outcome_analysis h, Action.outcome_bind]
  rcases (resume (Moment.start o tree).frames).outcome (Moment.start o tree).store with
    ⟨_ | _, t⟩ <;> rfl

end LexScope.Walk
