import LexScope.Proofs.Delivery

/-!
# Proofs — Noted — any errors can be noted in a program

A parser that recovers from errors adds them to the program as one more member of it
(`Tree.noting`).  That member is no part of the program: what conformed to the grammar still does
(`Conforms.noting`), and everything that is read of the program is as before.

So whatever errors are noted in a program, a parser may reply with it, and a run that tolerates
errors reads just those (`Answers.noting`, `noted_noting`).
-/

namespace LexScope

namespace Tree

/-- The members of a program with a list of errors somewhere among them. -/
def noting (front rear : List (String × Tree)) (records : List Tree) : Tree :=
  .obj (front ++ ("errors", .arr records) :: rear)

variable {front rear : List (String × Tree)} {records : List Tree} {key : String}
  {test : Tree → Bool}

/-- Nothing but the errors is changed. -/
theorem get_noting (hkey : key ≠ "errors") :
    (noting front rear records).get key = (obj (front ++ rear)).get key := by
  have hne : (key == "errors") = false := beq_false_of_ne hkey
  simp [noting, get, List.lookup_append, List.lookup_cons, hne]

/-- The errors are there, if there were none before. -/
theorem get_noting_errors (hfree : "errors" ∉ (front ++ rear).map (·.1)) :
    (noting front rear records).get "errors" = .arr records := by
  have hnone : front.lookup "errors" = none := by
    rw [List.lookup_eq_none_iff]
    intro m hm
    exact bne_iff_ne.2 fun heq =>
      hfree (List.mem_map.2 ⟨m, List.mem_append_left _ hm, heq.symm⟩)
  simp [noting, get, List.lookup_append, hnone]

theorem allMembers_append {ms ms' : List (String × Tree)} :
    allMembers test (ms ++ ms') = (allMembers test ms && allMembers test ms') := by
  induction ms with
  | nil => rfl
  | cons m ms ih => rw [List.cons_append, allMembers, allMembers, ih, Bool.and_assoc]

theorem allItems_of_forall (h : ∀ t ∈ records, t.allObjects test = true) :
    allItems test records = true := by
  induction records with
  | nil => rfl
  | cons t ts ih =>
      obtain ⟨ht, hts⟩ := List.forall_mem_cons.1 h
      rw [allItems, ht, ih hts]
      rfl

/-- A test that does not look at the errors of an object holds of a program with errors if it holds
of the program and of the errors. -/
theorem allObjects_noting (htest : test (noting front rear records) = test (obj (front ++ rear)))
    (h : (obj (front ++ rear)).allObjects test = true)
    (hrecords : ∀ t ∈ records, t.allObjects test = true) :
    (noting front rear records).allObjects test = true := by
  rw [allObjects, allMembers_append, Bool.and_eq_true, Bool.and_eq_true] at h
  rw [noting, allObjects, allMembers_append, allMembers, allObjects, allItems_of_forall hrecords,
    h.2.1, h.2.2, ← noting, htest, h.1]
  rfl

theorem TextNames.noting (h : (obj (front ++ rear)).TextNames)
    (hrecords : ∀ t ∈ records, t.TextNames) : (noting front rear records).TextNames := by
  refine allObjects_noting ?_ h hrecords
  rw [isNamedByText, isNamedByText, get_noting (by decide), get_noting (by decide)]

theorem Presentable.noting (h : (obj (front ++ rear)).Presentable)
    (hrecords : ∀ t ∈ records, t.Presentable) : (noting front rear records).Presentable := by
  refine allObjects_noting ?_ h hrecords
  simp only [isPresentable, Tree.position?, objectAt?,
    get_noting (by decide : "loc" ≠ "errors"), get_noting (by decide : "kind" ≠ "errors")]

end Tree

namespace Grammar

open LexScope.Tree (get_noting)

namespace Part

variable {p q r : Part}

theorem conforms_iff : p.Conforms ↔ p.isFormed = true ∧ ∀ q ∈ p.below, q.Conforms := by
  refine ⟨fun h => ⟨h.isFormed, fun q hq => h.below hq⟩, fun ⟨hp, hbelow⟩ q hq => ?_⟩
  rcases mem_parts.1 hq with rfl | ⟨m, hm, hq⟩
  · exact hp
  · exact hbelow m hm q hq

/-- Whether a part conforms depends on the phrase and on the node only. -/
theorem Conforms.of_same (h : p.Conforms) (hphrase : q.phrase = p.phrase)
    (hnode : q.node = p.node) : q.Conforms := by
  induction p using below_induction generalizing q with
  | h p ih =>
      obtain ⟨hp, hbelow⟩ := conforms_iff.1 h
      refine conforms_iff.2 ⟨?_, fun r hr => ?_⟩
      · have hkeys : q.keys = p.keys := by
          unfold keys
          rw [hnode]
        rw [isFormed_iff, hkeys, hphrase, hnode]
        exact isFormed_iff.1 hp
      · obtain ⟨s, hs, hr⟩ := mem_below.1 hr
        obtain ⟨hstands, -, hr⟩ := mem_standing.1 hr
        rw [slots, hphrase, hnode] at hs
        have hm : (⟨⟨p.phrase, p.node, s.key⟩ :: p.above, s.phrase, r.node⟩ : Part) ∈ p.below :=
          mem_below.2 ⟨s, hs, mem_standing.2 ⟨hnode ▸ hstands, rfl, rfl⟩⟩
        exact ih _ hm (hbelow _ hm) hr rfl

end Part

/-- The one member of a program at which phrases stand. -/
def bodySlot : Slot := ⟨"body", .many, .walked (statements ++ moduleItems)⟩

theorem slots?_program {n : Node} (h : n.typeName? = some "Program") :
    slots? (.walked ["Program"]) n = some [bodySlot] := by
  rw [slots?, h]
  rfl

variable {front rear : List (String × Tree)} {records : List Tree}

/-- **A program with errors noted in it is a program.** -/
theorem Conforms.noting (hfree : "errors" ∉ (front ++ rear).map (·.1))
    (h : Conforms (.obj (front ++ rear))) : Conforms (Tree.noting front rear records) := by
  obtain ⟨hformed, hbelow⟩ := Part.conforms_iff.1 h
  obtain ⟨slots, hslots, hkeys, hfits, hrest⟩ := Part.isFormed_iff.1 hformed
  let n : Node := .root (.obj (front ++ rear))
  let m : Node := .root (Tree.noting front rear records)
  have hget : ∀ key, key ≠ "errors" → m.get key = n.get key := fun key hkey =>
    congrArg (Node.mk _) (get_noting hkey)
  have hbody : m.get bodySlot.key = n.get bodySlot.key := hget _ (by decide)
  -- What conforms is of the type of a program, which has its slot whatever else it holds.
  obtain ⟨type, ht, hmem, -⟩ := slots?_eq_some.1 hslots
  obtain rfl := List.mem_singleton.1 hmem
  have htype : m.typeName? = some "Program" := by
    have hsame : m.type = n.type := get_noting (by decide : "type" ≠ "errors")
    rw [← ht, Node.typeName?, hsame]
    rfl
  obtain rfl := Option.some.inj (hslots.symm.trans (slots?_program ht))
  have hslots' : slots? (.walked ["Program"]) m = some [bodySlot] := slots?_program htype
  have hkeys' : ((program (Tree.noting front rear records)).keys).Perm
      ("errors" :: (front ++ rear).map (·.1)) := by
    have hsame : (program (Tree.noting front rear records)).keys =
        front.map (·.1) ++ "errors" :: rear.map (·.1) := List.map_append
    rw [hsame, List.map_append]
    exact List.perm_middle
  refine Part.conforms_iff.2 ⟨Part.isFormed_iff.2 ⟨_, hslots', ?_, ?_, ?_⟩, fun r hr => ?_⟩
  · exact hkeys'.nodup_iff.2 (List.nodup_cons.2 ⟨hfree, hkeys⟩)
  · intro s hs
    have hfit := hfits s hs
    obtain rfl := List.mem_singleton.1 hs
    unfold Slot.fits at hfit ⊢
    exact hbody ▸ hfit
  · intro key hkey
    by_cases herrors : key = "errors"
    · exact .inl (herrors ▸ by decide)
    · have hold := (List.mem_cons.1 (hkeys'.mem_iff.1 hkey)).resolve_left herrors
      exact (hrest key hold).imp_right (·.imp_right fun h => (hget key herrors).symm ▸ h)
  · obtain ⟨s, hs, hr⟩ := Part.mem_below.1 hr
    have hslot : s ∈ (some [bodySlot]).getD [] := hslots' ▸ hs
    obtain rfl := List.mem_singleton.1 hslot
    obtain ⟨hstands, -, hphrase⟩ := Part.mem_standing.1 hr
    have hnodes : bodySlot.nodes m = bodySlot.nodes n := congrArg Node.items hbody
    have hpart : (⟨[⟨.walked ["Program"], n, bodySlot.key⟩], bodySlot.phrase, r.node⟩ : Part) ∈
        (program (.obj (front ++ rear))).below :=
      Part.mem_below.2 ⟨bodySlot, by rw [Part.slots, hslots]; exact List.mem_singleton_self _,
        Part.mem_standing.2 ⟨hnodes ▸ hstands, rfl, rfl⟩⟩
    exact (hbelow _ hpart).of_same hphrase rfl

end Grammar

namespace CommandLine

variable {front rear : List (String × Tree)} {records : List Tree}

/-- **A parser may note any errors in a program.** -/
theorem Answers.noting (hc : Grammar.Conforms (.obj (front ++ rear)))
    (hn : (Tree.obj (front ++ rear)).TextNames) (hp : (Tree.obj (front ++ rear)).Presentable)
    (hfree : "errors" ∉ (front ++ rear).map (·.1))
    (hrecords : ∀ t ∈ records, t.isObj = true ∧ t.TextNames ∧ t.Presentable) :
    Answers (.ok (Tree.noting front rear records)) :=
  .program (hc.noting hfree) (hn.noting fun t ht => (hrecords t ht).2.1)
    (hp.noting fun t ht => (hrecords t ht).2.2)
    (.inr ⟨_, Tree.get_noting_errors hfree, fun t ht => (hrecords t ht).1⟩)

/-- A run that tolerates errors reads the errors that are noted. -/
theorem noted_noting {r : AnalyzeRequest} (hfree : "errors" ∉ (front ++ rear).map (·.1)) :
    r.noted (Tree.noting front rear records) = if r.strict then [] else records.map errorOf := by
  rw [AnalyzeRequest.noted, Tree.get_noting_errors hfree]

end CommandLine

end LexScope
