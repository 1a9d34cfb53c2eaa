import LexScope.Proofs.Implicit

/-!
# Proofs — SoleProgram — one program node, one global scope

Nothing keeps a program node from standing inside another one, and each has a global scope of its
own.  Where the root is the only one (`Tree.SoleProgram`), the walk opens one global scope, before
all others: no event inside it opens another (`Event.Local`), and every scope lies below it.

* `analyze_sole`: **the finished store has one global scope**, the first scope of all, on every way
  up; nothing else has implicit variables, and those it has are explained.
-/

namespace LexScope

namespace Tree

mutual

/-- How many objects of a type there are in a tree. -/
def countType (type : String) : Tree → Nat
  | .arr items => countItems type items
  | .obj members =>
      (if (Tree.obj members).get "type" = .str type then 1 else 0) + countMembers type members
  | _ => 0

/-- How many objects of a type there are in the items of a list. -/
def countItems (type : String) : List Tree → Nat
  | [] => 0
  | t :: ts => countType type t + countItems type ts

/-- How many objects of a type there are in the values of an object. -/
def countMembers (type : String) : List (String × Tree) → Nat
  | [] => 0
  | (_, t) :: ms => countType type t + countMembers type ms

end

/-- The root of a tree is a program, and no other node is. -/
def SoleProgram (t : Tree) : Prop := t.get "type" = .str "Program" ∧ t.countType "Program" = 1

instance (t : Tree) : Decidable t.SoleProgram := inferInstanceAs (Decidable (_ ∧ _))

variable {type : String} {t : Tree}

theorem countType_le_countItems {items : List Tree} (h : t ∈ items) :
    t.countType type ≤ countItems type items := by
  induction items with
  | nil => cases h
  | cons u us ih =>
      rw [countItems]
      rcases List.mem_cons.1 h with rfl | h
      · exact Nat.le_add_right _ _
      · exact (ih h).trans (Nat.le_add_left _ _)

theorem countType_le_countMembers {k : String} {members : List (String × Tree)}
    (h : (k, t) ∈ members) : t.countType type ≤ countMembers type members := by
  induction members with
  | nil => cases h
  | cons m ms ih =>
      rw [countMembers]
      rcases List.mem_cons.1 h with rfl | h
      · exact Nat.le_add_right _ _
      · exact (ih h).trans (Nat.le_add_left _ _)

/-- Holding no object of a type passes on to whatever is read. -/
theorem hereditary_countType (type : String) : Hereditary fun t => t.countType type = 0 := by
  refine ⟨rfl, fun _ => rfl, fun items t h ht => ?_, fun members k t h ht => ?_⟩
  · rw [countType] at h
    exact Nat.le_zero.1 (h ▸ countType_le_countItems ht)
  · rw [countType, Nat.add_eq_zero_iff] at h
    exact Nat.le_zero.1 (h.2 ▸ countType_le_countMembers ht)

/-- Below a sole program there is none. -/
theorem SoleProgram.member (h : t.SoleProgram) {members : List (String × Tree)}
    (ht : t = .obj members) {k : String} {u : Tree} (hu : (k, u) ∈ members) :
    u.countType "Program" = 0 := by
  subst ht
  obtain ⟨htype, hcount⟩ := h
  rw [countType, if_pos htype] at hcount
  have hle : u.countType "Program" ≤ countMembers "Program" members := countType_le_countMembers hu
  omega

theorem SoleProgram.children (h : t.SoleProgram) {c : Node} (hc : c ∈ (Node.root t).children) :
    c.value.countType "Program" = 0 := by
  rw [Node.children] at hc
  split at hc
  · rename_i members hv
    obtain ⟨⟨key, u⟩, hm, hc⟩ := List.mem_flatMap.1 hc
    exact (hereditary_countType "Program").typedAt (n := ⟨(Node.root t).path ++ [.member key], u⟩)
      (h.member hv (List.mem_filter.1 hm).1) hc
  · cases hc

end Tree

open Store LexScope.Action LexScope.Tree

namespace Walk

/-! ### Events that open no global scope -/

mutual

/-- An event opens no global scope. -/
def Event.Local : Event → Prop
  | .within kind _ inside => kind ≠ .global ∧ AllLocal inside
  | _ => True

/-- Events open no global scope. -/
def AllLocal : List Event → Prop
  | [] => True
  | e :: rest => e.Local ∧ AllLocal rest

end

theorem allLocal_iff {events : List Event} : AllLocal events ↔ ∀ e ∈ events, e.Local := by
  induction events with
  | nil => simp [AllLocal]
  | cons e rest ih => simp [AllLocal, ih]

mutual

/-- What is sourced where there is no program opens no global scope. -/
theorem Event.Sourced.isLocal : ∀ {e : Event},
    e.Sourced (fun t => t.countType "Program" = 0) → e.Local
  | .within kind n inside, h => by
      refine ⟨?_, AllSourced.allLocal h.2.2⟩
      rintro rfl
      have htype : n.value.get "type" = .str "Program" := of_decide_eq_true (h.2.1 rfl)
      have hcount : n.value.countType "Program" = 0 := h.1
      cases hv : n.value with
      | obj members =>
          rw [hv] at htype hcount
          rw [countType, if_pos htype] at hcount
          omega
      | _ => rw [hv] at htype; cases htype
  | .define _ _ _, _ | .refer _, _ | .callEval, _ | .useThis, _ | .needScope, _ | .phase _, _
  | .fail _, _ | .closeOwned _, _ => trivial

theorem AllSourced.allLocal : ∀ {events : List Event},
    AllSourced (fun t => t.countType "Program" = 0) events → AllLocal events
  | [], _ => trivial
  | _ :: _, h => ⟨Event.Sourced.isLocal h.1, AllSourced.allLocal h.2⟩

end

/-- A sole program is entered through one global scope, and nothing inside opens another. -/
theorem plan_sole {tree : Tree} (h : tree.SoleProgram) (g : Gates) : ∃ body,
    plan g (.root tree) = [.within .global (.root tree) body, .closeOwned (.root tree)] ∧
      AllLocal body := by
  cases tree with
  | obj members =>
      let n := Node.root (.obj members)
      let visit := planAt g (heightMembers members)
      have hchildren : AllLocal (visitChildren visit n) := by
        refine AllSourced.allLocal (allSourced_flatMap.2 fun c hc => ?_)
        exact sourcedVisit_planAt (hereditary_countType "Program") g _ c (h.children hc)
      have htype : n.type = .str "Program" := h.1
      have hkinds : scopeKinds? n false = some [.global] := by
        rw [scopeKinds?, ScopeKind.ofNode?, htype]
        rfl
      have hplan : plan g n = program g visit n := by
        have hname : n.typeName? = some "Program" := by rw [Node.typeName?, htype]
        show step g visit n = _
        rw [step, hname]
        rfl
      refine ⟨if g.isModule then [.within .moduleTop n (visitChildren visit n)]
        else visitChildren visit n, ?_, ?_⟩
      · show plan g n = _
        rw [hplan, program, nested, hkinds]
        rfl
      · split
        · exact ⟨⟨by decide, hchildren⟩, trivial⟩
        · exact hchildren
  | _ => cases h.1

end Walk

/-! ### Which scope is the global one -/

namespace Store

@[simp] theorem global_updateScopes (s : Store) (l : List ScopeId) (f : Scope → Scope) :
    (s.updateScopes l f).global = s.global := by
  induction l generalizing s with
  | nil => rfl
  | cons i l ih => exact ih (s.updateScope i f)

theorem global_addScope (s : Store) (kind : ScopeKind) (n : Node) (upper : Option ScopeId)
    (strict : Bool) : (s.addScope kind n upper strict).global =
      if kind = .global then some s.scopes.size else s.global := by
  unfold addScope
  cases upper <;> by_cases h : kind = .global <;> simp only [h, if_true, if_false] <;> rfl

end Store

namespace Action

variable {s s' : Store} {i : ScopeId} {n : Node}

theorem define_global {d : Definition} {w : Option VariableId}
    (h : (define i n d).outcome s = (.ok w, s')) : s'.global = s.global := by
  obtain ⟨-, -, rfl⟩ | ⟨-, key, a, -, -, ⟨v, -, -, rfl⟩ | ⟨-, -, rfl⟩⟩ := define_ok_iff.1 h <;> rfl

theorem enter_global {kind : ScopeKind} {upper : Option ScopeId}
    (h : (enter kind n upper).outcome s = (.ok i, s')) :
    s'.global = if kind = .global then some s.scopes.size else s.global := by
  obtain ⟨t, ho, hp⟩ := enter_ok_iff.1 h
  obtain ⟨above, strict, -, -, -, -, rfl⟩ := openScope_ok_iff.1 ho
  have ht := global_addScope s kind n upper strict
  obtain rfl | ⟨v, hv⟩ | ⟨w, hw⟩ := provide_ok hp
  · exact ht
  · rw [(bindNew_ok_iff.1 hv).2]
    exact ht
  · exact (define_global hw).trans ht

theorem settle_global {r : ReferenceId} (h : (settle i r).outcome s = (.ok (), s')) :
    s'.global = s.global := by
  obtain ⟨ref, key, a, -, -, -, ⟨v, -, rfl⟩ | ⟨-, hup⟩⟩ := settle_ok_iff.1 h
  · rfl
  · obtain ⟨a, -, ⟨-, rfl⟩ | ⟨w, above, -, -, -, rfl⟩⟩ := handUp_ok_iff.1 hup <;> rfl

theorem close_global {up : Option ScopeId} (h : (close i).outcome s = (.ok up, s')) :
    s'.global = s.global := by
  obtain ⟨a, pending, t, u, last, -, -, himp, hset, -, -, -, rfl⟩ := close_ok_iff.1 h
  have ht : t.global = s.global := by
    refine bindImplicits_induction (P := fun t => t.global = s.global) himp rfl ?_
    intro c v v' hv hm
    obtain ⟨w, x, key, hd, -, rfl⟩ := makeImplicit_ok_iff.1 hm
    exact (define_global hd).trans hv
  show u.global = s.global
  refine settleAll_induction (P := fun _ t => t.global = s.global) hset ht ?_ ?_
  · intro r l v v' hv hr
    exact (settle_global hr).trans hv
  · intro r l v hv
    exact (global_updateScopes ..).trans hv

end Action

/-- Only entering another global scope changes which one is the last. -/
theorem Operation.Orderly.global {s t : Store} {current : Option ScopeId} {op : Operation}
    {out : Outcome} (ho : op.Orderly s current) (hop : op.applyTo s = (.ok out, t))
    (hne : ∀ n c, op ≠ .enter .global n c) : t.global = s.global := by
  have happly : op.apply.outcome s = (.ok out, t) := hop
  cases op with
  | enter kind n upper =>
      obtain ⟨i, -, he⟩ := bind_pure_ok_iff.1 happly
      rw [enter_global he, if_neg]
      rintro rfl
      exact hne n upper rfl
  | define i n d =>
      obtain ⟨w, -, hd⟩ := bind_pure_ok_iff.1 happly
      exact define_global hd
  | refer i u =>
      obtain ⟨w, -, hr⟩ := bind_pure_ok_iff.1 happly
      obtain ⟨-, -, rfl⟩ | ⟨-, -, rfl, -⟩ := refer_ok_iff.1 hr <;> rfl
  | noteEval i =>
      obtain ⟨w, -, hn⟩ := bind_pure_ok_iff.1 happly
      rw [(noteEval_ok_iff.1 hn).2]
      exact global_updateScopes ..
  | noteThis i =>
      obtain ⟨w, -, hn⟩ := bind_pure_ok_iff.1 happly
      rw [(noteThis_ok_iff.1 hn).2]
      rfl
  | close i =>
      obtain ⟨up, -, hc⟩ := Operation.applyTo_close_ok.1 hop
      exact close_global hc
  | nest _ _ _ => exact ho.elim
  | defineArguments _ => exact ho.elim
  | visit _ _ => exact ho.elim

namespace Walk

variable {P : Tree → Prop} {m m' : Moment} {op : Option Operation} {ops : List Operation}

/-- A moment at which the one global scope is open or closed, and all else lies below it. -/
structure Moment.Solo (m : Moment) : Prop where
  events : ∀ f ∈ m.frames, AllLocal f.todo
  outside : ∀ f ∈ m.frames, f.scope = none → ∀ kind n inside, .within kind n inside ∉ f.todo
  global : m.store.global = some 0
  first : ∃ a, m.store.scopeAt? 0 = some a ∧ a.kind = .global
  only : ∀ i a, m.store.scopeAt? i = some a → a.kind = .global → i = 0
  below : ∀ i, i < m.store.scopes.size → 0 ∈ m.store.chain i

theorem Moment.Solo.step (h : m.Solo) (hg : m.Good) (hs : Step m op m') : m'.Solo := by
  have hE := (hg.changes hs).evolves hg.disciplined.sound
  have hg' := hg.step hs
  -- The event that opens a scope opens no global one, and stands inside a scope.
  have hwithin : ∀ {c kind n inside todo rest},
      m.frames = ⟨c, .within kind n inside :: todo⟩ :: rest →
      (Event.within kind n inside).Local ∧ c ≠ none := by
    intro c kind n inside todo rest hf
    have hmem : (⟨c, .within kind n inside :: todo⟩ : Frame) ∈ m.frames :=
      hf ▸ List.mem_cons_self
    refine ⟨(h.events _ hmem).1, ?_⟩
    rintro rfl
    exact h.outside _ hmem rfl kind n inside List.mem_cons_self
  have hopened : ∀ {i b}, m.store.scopes.size ≤ i → m'.store.scopeAt? i = some b →
      b.kind ≠ .global ∧ ∃ c, m'.store.upperOf i = some c ∧ c < m.store.scopes.size := by
    intro i b hi hb
    obtain ⟨c, kind, n, inside, todo, rest, hf, -, -, rfl, -, rfl⟩ := hg.opened_step hs hi hb
    obtain ⟨hlocal, hsome⟩ := hwithin hf
    obtain ⟨c, hc⟩ := Option.ne_none_iff_exists'.1 hsome
    exact ⟨hlocal.1, c, (upperOf_eq hb).trans hc,
      hg.linked.of_mem (hf ▸ List.mem_cons_self) hc⟩
  have hglobal : m'.store.global = m.store.global := by
    obtain ⟨o, out, rfl, ho, hop, -⟩ | ⟨-, -, heq | ⟨entry, heq⟩⟩ := hg.step_cases hs
    · refine ho.global hop fun n c => ?_
      rintro rfl
      obtain ⟨inside, todo, rest, hf⟩ := hs.attempts.frames_of_enter
      exact (hwithin hf).1.1 rfl
    · rw [heq]
    · rw [heq]
      rfl
  refine ⟨fun f hf => ?_, fun f hf hnone kind n inside hin => ?_, hglobal.trans h.global,
    ?_, ?_, ?_⟩
  · rcases hs.todo f hf with ⟨g, hg, -, hsuffix⟩ | ⟨c, kind, n, inside, todo, rest, hm, hin, -⟩
    · exact allLocal_iff.2 fun e he => allLocal_iff.1 (h.events g hg) e (hsuffix.subset he)
    · exact hin ▸ (hwithin hm).1.2
  · rcases hs.todo f hf with ⟨g, hg, hscope, hsuffix⟩ | ⟨c, _, _, _, _, _, -, -, hsome⟩
    · exact h.outside g hg (hscope ▸ hnone) kind n inside (hsuffix.subset hin)
    · exact hsome hnone
  · obtain ⟨a, ha, hk⟩ := h.first
    obtain ⟨b, hb, hev, -⟩ := hE.scope 0 a ha
    exact ⟨b, hb, (Scope.kind_of_frame hev.frame).trans hk⟩
  · intro i b hb hk
    by_cases hi : i < m.store.scopes.size
    · obtain ⟨a, ha, hev⟩ := hE.scope_of_lt hi hb
      exact h.only i a ha ((Scope.kind_of_frame hev.frame).symm.trans hk)
    · exact absurd hk (hopened (Nat.not_lt.1 hi) hb).1
  · intro i hi
    have hchain : ∀ {j}, j < m.store.scopes.size → 0 ∈ m'.store.chain j := fun {j} hj => by
      rw [hE.chain hg.disciplined.sound hg'.disciplined.sound hj]
      exact h.below j hj
    by_cases hlt : i < m.store.scopes.size
    · exact hchain hlt
    · obtain ⟨b, hb⟩ := scopeAt?_of_lt hi
      obtain ⟨-, c, hup, hc⟩ := hopened (Nat.not_lt.1 hlt) hb
      rw [chain_step hg'.disciplined.sound.rooted hup]
      exact List.mem_cons_of_mem _ (hchain hc)

theorem Moment.Solo.steps (h : m.Solo) (hg : m.Good) (hs : Steps m ops m') : m'.Solo := by
  induction hs with
  | refl => exact h
  | more hs _ ih => exact ih (h.step hg hs) (hg.step hs)

/-- The walk over a sole program opens its global scope first. -/
theorem Moment.solo_of_over {o : Options} {tree : Tree} (h : tree.SoleProgram)
    (hs : Steps (.start o tree) ops m) (ho : m.Over) : m.Solo := by
  obtain ⟨body, hplan, hlocal⟩ := plan_sole h (.ofOptions o)
  have hg := Moment.start_good o tree
  have hstart : (Moment.start o tree).frames =
      [⟨none, [.within .global (.root tree) body, .closeOwned (.root tree)]⟩] := by
    rw [Moment.start, hplan]
  cases hs with
  | refl =>
      rw [Moment.Over, hstart] at ho
      cases ho
  | @more _ m₁ _ op ops hs hrest =>
      refine Moment.Solo.steps ?_ (hg.step hs) hrest
      generalize hm : Moment.start o tree = m₀ at hs hg hstart
      obtain ⟨frames, s⟩ := m₀
      obtain rfl : frames = _ := hstart
      have hsize : s.scopes.size = 0 := by
        rw [← show (Moment.start o tree).store = s from congrArg Moment.store hm]
        rfl
      cases hs with
      | @enter c kind n inside todo rest s t i he =>
          have he := Operation.applyTo_enter_ok.1 he
          obtain ⟨rfl, -, hsize', -⟩ := enter_opened hg.disciplined.sound he
          obtain ⟨b, hb, hk, -⟩ := enter_scopeAt? hg.disciplined.sound he
          have hglobal := enter_global he
          rw [if_pos rfl] at hglobal
          have hfirst : ∀ i, i < t.scopes.size → i = 0 := fun i hi => by
            rw [hsize', hsize] at hi
            omega
          rw [hsize] at hb hglobal
          refine ⟨?_, ?_, hglobal, ⟨b, hb, hk⟩, fun i a ha _ => hfirst i (scopeAt?_lt ha),
            fun i hi => hfirst i hi ▸ self_mem_chain t i⟩
          · intro f hf
            rcases List.mem_cons.1 hf with rfl | hf
            · exact hlocal
            · rw [List.mem_singleton.1 hf]
              exact ⟨trivial, trivial⟩
          · intro f hf hnone kind n inside hin
            rcases List.mem_cons.1 hf with rfl | hf
            · cases hnone
            · rw [List.mem_singleton.1 hf] at hin
              cases List.mem_singleton.1 hin

end Walk

/-! ### The finished store -/

namespace Store

variable {s : Store} {a : Scope}

/-- What an analysis of a sole program leaves: all scopes lie below one global scope, the only one
with implicit variables. -/
structure Sole (s : Store) (a : Scope) : Prop extends Finished (fun _ => True) s where
  global : s.global = some 0
  scope : s.scopeAt? 0 = some a
  kind : a.kind = .global
  only : ∀ i b, s.scopeAt? i = some b → b.kind = .global → i = 0
  below : ∀ i, i < s.scopes.size → 0 ∈ s.chain i

theorem Sole.explained (h : s.Sole a) (key : Name) : s.Explained 0 a key :=
  (h.globals 0 a h.scope h.kind).1 key

theorem Sole.names (h : s.Sole a) : a.implicit.names.Nodup := (h.globals 0 a h.scope h.kind).2.1

theorem Sole.left (h : s.Sole a) : a.implicitLeft = a.through := (h.globals 0 a h.scope h.kind).2.2

theorem Sole.others {i : ScopeId} {b : Scope} (h : s.Sole a) (hb : s.scopeAt? i = some b)
    (hi : i ≠ 0) : b.kind ≠ .global ∧ b.implicit = [] :=
  have hk : b.kind ≠ .global := fun hk => hi (h.only i b hb hk)
  ⟨hk, h.bare i b hb hk⟩

end Store

namespace Walk

theorem analyze_sole {o : Options} {tree : Tree} {s : Store} (h : tree.SoleProgram)
    (hs : analyze o tree = .ok s) : ∃ a, s.Sole a := by
  have hfinished := analyze_finished (P := fun _ => True) Tree.hereditary_true trivial hs
  obtain ⟨ops, m, hsteps, hover, hg, rfl⟩ := analyze_ok hs
  have hsolo := Moment.solo_of_over h hsteps hover
  obtain ⟨a, ha, hk⟩ := hsolo.first
  exact ⟨a, hfinished, hsolo.global, ha, hk, hsolo.only, fun i hi =>
    chain_record hg.disciplined.sound.rooted _ i ▸ hsolo.below i hi⟩

end Walk

end LexScope
