import LexScope.Proofs.RewordAction

/-!
# Proofs — Annotations — what annotates a program has no influence

Two programs differ in annotations only if they are one program without them (`Tree.unannotated`).
That says of an object with anything else in it that its other members are the same, in the same
order; how many annotations it has, where they stand among the others, and what they hold, is left
open (`Tree.unannotated_obj`).  What they hold may look like nodes, too.

An analysis of either program is an analysis of the one without annotations, so both return the same
but for the annotations of the nodes (`analyze_unannotated`).
-/

namespace LexScope

open Node (annotates)

/-- The same words, and no annotations. -/
def Wording.unannotated : Wording := ⟨id, .shed⟩

/-- A tree without annotations. -/
def Tree.unannotated (t : Tree) : Tree := t.reword .unannotated

/-- A store without the annotations of its nodes. -/
def Store.unannotated (s : Store) : Store := s.reword .unannotated

theorem Wording.faithful_unannotated : Wording.unannotated.Faithful :=
  ⟨Function.injective_id, rfl, rfl⟩

/-! ### Trees that differ in annotations only -/

namespace Tree

/-- The members of an object that are no annotations. -/
def partsOf (members : List (String × Tree)) : List (String × Tree) :=
  members.filter fun m => !annotates m.1

variable {ms ms' : List (String × Tree)} {ts ts' : List Tree}

theorem rewordMembers_shed (w : Wording) (called : Bool) (ms : List (String × Tree)) :
    rewordMembers w called true ms =
      (partsOf ms).map fun m => (m.1, rewordMember w called m.1 m.2) := by
  induction ms with
  | nil => rfl
  | cons m ms ih =>
      rw [rewordMembers_cons, partsOf]
      cases hm : annotates m.1 with
      | true => rw [List.filter_cons_of_neg (by simp [hm])]; exact ih
      | false => rw [List.filter_cons_of_pos (by simp [hm]), ih]; rfl

theorem lookup_partsOf {key : String} (h : annotates key = false) :
    (partsOf ms).lookup key = ms.lookup key := by
  induction ms with
  | nil => rfl
  | cons m ms ih =>
      obtain ⟨k, t⟩ := m
      rw [partsOf]
      cases hk : annotates k with
      | true =>
          have hne : (key == k) = false := by
            rw [beq_eq_false_iff_ne]
            rintro rfl
            rw [h] at hk
            cases hk
          rw [List.filter_cons_of_neg (by simp [hk]), List.lookup_cons, hne]
          exact ih
      | false =>
          rw [List.filter_cons_of_pos (by simp [hk]), List.lookup_cons, List.lookup_cons]
          split
          · rfl
          · exact ih

/-- Members of one name whose values differ in annotations only. -/
def MembersAlike (m m' : String × Tree) : Prop :=
  m'.1 = m.1 ∧ m'.2.unannotated = m.2.unannotated

theorem lookup_alike (h : List.Forall₂ MembersAlike ms ms') (key : String) :
    ((ms'.lookup key).getD .null).unannotated = ((ms.lookup key).getD .null).unannotated := by
  induction h with
  | nil => rfl
  | @cons m m' ms ms' hm _ ih =>
      obtain ⟨k, t⟩ := m
      obtain ⟨k', t'⟩ := m'
      obtain ⟨hk, ht⟩ : k' = k ∧ t'.unannotated = t.unannotated := hm
      rw [List.lookup_cons, List.lookup_cons, hk]
      cases key == k with
      | true => exact ht
      | false => exact ih

theorem hasParts_eq (ms : List (String × Tree)) :
    hasParts ms = decide (0 < (partsOf ms).length) := by
  rw [hasParts, partsOf, Bool.eq_iff_iff]
  simp [List.any_eq_true, List.length_pos_iff_exists_mem]

/-- Whether an object is an identifier is said by its type, which is a part. -/
theorem isCalled_alike (h : List.Forall₂ MembersAlike (partsOf ms) (partsOf ms')) :
    isCalled ms' = isCalled ms := by
  have htype : ∀ l : List (String × Tree),
      (obj l).get "type" = ((partsOf l).lookup "type").getD .null := fun l => by
    rw [lookup_partsOf (by decide)]
    rfl
  have hsame : ((obj ms').get "type").reword .unannotated =
      ((obj ms).get "type").reword .unannotated := by
    rw [htype, htype]
    exact lookup_alike h "type"
  have hiff : ∀ l : List (String × Tree), (obj l).get "type" = .str "Identifier" ↔
      ((obj l).get "type").reword .unannotated = .str "Identifier" := fun _ => reword_eq_str.symm
  rw [isCalled, isCalled]
  exact decide_eq_decide.2 (by rw [hiff, hsame, hiff])

/-- Members of one name whose values differ in annotations only become the same. -/
theorem map_rewordMember_alike {l l' : List (String × Tree)} (called : Bool)
    (h : List.Forall₂ MembersAlike l l') :
    l'.map (fun m => (m.1, rewordMember .unannotated called m.1 m.2)) =
      l.map fun m => (m.1, rewordMember .unannotated called m.1 m.2) := by
  induction h with
  | nil => rfl
  | @cons m m' l l' hm _ ih =>
      obtain ⟨k, t⟩ := m
      obtain ⟨k', t'⟩ := m'
      obtain ⟨hk, ht⟩ : k' = k ∧ t'.reword .unannotated = t.reword .unannotated := hm
      have hkeeps : Wording.unannotated.keeps = false := rfl
      have hmember : ∀ u, rewordMember .unannotated called k u =
          if called && k = "name" then (u.reword .unannotated).label id
          else u.reword .unannotated := fun u => if_neg (by simp [hkeeps])
      rw [List.map_cons, List.map_cons, ih, hk, hmember, hmember, ht]

/-- **Of an object that has parts only the parts count**, in their order. -/
theorem unannotated_obj (hp : hasParts ms = true)
    (h : List.Forall₂ MembersAlike (partsOf ms) (partsOf ms')) :
    (obj ms').unannotated = (obj ms).unannotated := by
  have hp' : hasParts ms' = true := by
    rw [hasParts_eq, ← h.length_eq, ← hasParts_eq]
    exact hp
  rw [unannotated, unannotated, reword, reword, isCalled_alike h, hp, hp']
  show obj (rewordMembers _ _ true ms') = obj (rewordMembers _ _ true ms)
  rw [rewordMembers_shed, rewordMembers_shed]
  exact congrArg obj (map_rewordMember_alike _ h)

/-- Of a list all items count. -/
theorem unannotated_arr (h : List.Forall₂ (fun t t' => t'.unannotated = t.unannotated) ts ts') :
    (arr ts').unannotated = (arr ts).unannotated := by
  rw [unannotated, unannotated, reword, reword, rewordItems_eq_map, rewordItems_eq_map]
  refine congrArg arr ?_
  induction h with
  | nil => rfl
  | cons ht _ ih => exact congrArg₂ List.cons ht ih

end Tree

/-! ### Whole analyses -/

/-- **Annotations have no influence.**  If two programs are one without annotations, then an
analysis that returns for the one returns for the other, and the stores are one without annotations;
and if both stop at a fault, it is the same fault, and the messages differ in the position at
most. -/
theorem analyze_unannotated {t t' : Tree} (h : t.unannotated = t'.unannotated) (o : Options) :
    (∀ s, analyze o t = .ok s →
      ∃ s', analyze o t' = .ok s' ∧ s'.unannotated = s.unannotated) ∧
    ∀ f p f' p', analyze o t = .error (.analysis f p) → analyze o t' = .error (.analysis f' p') →
      f' = f ∧ ∃ text, (Error.analysis f p).message = text ++ p.suffix ∧
        (Error.analysis f' p').message = text ++ p'.suffix := by
  obtain ⟨hok, herror⟩ := analyze_reword Wording.faithful_unannotated o t
  obtain ⟨hok', herror'⟩ := analyze_reword Wording.faithful_unannotated o t'
  have hsame : t.reword .unannotated = t'.reword .unannotated := h
  rw [← hsame] at hok' herror'
  refine ⟨fun s hs => ?_, fun f p f' p' he he' => ?_⟩
  · have hbare := (hok s hs).1
    cases ht' : analyze o t' with
    | ok s' =>
        have hbare' := (hok' s' ht').1
        exact ⟨s', rfl, Except.ok.inj (hbare'.symm.trans hbare)⟩
    | error e =>
        obtain ⟨e', -, hbare'⟩ := herror' e ht'
        rw [hbare] at hbare'
        cases hbare'
  · -- Without annotations the program stops at the fault of either.
    obtain ⟨e, hrestates, hbare⟩ := herror _ he
    obtain ⟨e', hrestates', hbare'⟩ := herror' _ he'
    obtain ⟨q, rfl⟩ := hrestates.fault f p rfl
    obtain ⟨q', rfl⟩ := hrestates'.fault f' p' rfl
    obtain rfl : f' = f := by
      rw [hbare] at hbare'
      cases hbare'
      rfl
    exact ⟨rfl, f'.message, rfl, rfl⟩

/-- `x`, with some annotations of the program and some of the identifier. -/
def annotatedUse (ofProgram ofName : List (String × Tree)) : Tree :=
  .obj (ofProgram ++ [("type", .str "Program"), ("body", .arr [
    .obj [("type", .str "ExpressionStatement"), ("expression",
      .obj ([("type", .str "Identifier")] ++ ofName ++ [("name", .str "x")]))]])])

/-- Comments that look like identifiers are no uses of names. -/
theorem annotatedUse_unannotated :
    let ghost : Tree := .obj [("type", .str "Identifier"), ("name", .str "ghost")]
    let commented := annotatedUse [("comments", .arr [ghost]), ("regex", ghost)]
      [("leadingComments", .arr [ghost, ghost]), ("loc", .obj [("start", .obj [])])]
    let silent := annotatedUse [] []
    commented.unannotated = silent.unannotated ∧
      ∃ s s', analyze {} commented = .ok s ∧ analyze {} silent = .ok s' ∧
        s'.unannotated = s.unannotated ∧ s.references.size = 1 := by
  intro ghost commented silent
  have h : commented.unannotated = silent.unannotated := by decide +kernel
  have huses : (analyze {} commented).map (·.references.size) = .ok 1 := by decide +kernel
  cases hs : analyze {} commented with
  | error e =>
      rw [hs] at huses
      cases huses
  | ok s =>
      rw [hs] at huses
      obtain ⟨s', hs', hsame⟩ := (analyze_unannotated h {}).1 s hs
      exact ⟨h, s, s', rfl, hs', hsame, Except.ok.inj huses⟩

end LexScope
