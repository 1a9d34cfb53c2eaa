import LexScope.Proofs.Closed

/-!
# Proofs — Named — a definition binds the name of its variable

Whoever builds a store by hand may give a variable a definition of any name.  A walk does not: it
defines an identifier under itself (`Event.Tidy`), so all definitions of a variable bind the name of
the variable (`Store.Named`), at every moment of the walk (`Good.named`).
-/

namespace LexScope

open Store LexScope.Action

namespace Store

/-- Every definition of a variable binds the name of the variable. -/
def Named (s : Store) : Prop := ∀ v var d, s.variableAt? v = some var → d ∈ var.defs →
  Name.ofTree? (d.name.value.get "name") = Name.ofTree? var.name

variable {s t : Store} {i : ScopeId} {n : Node}

/-- What leaves names and definitions alone leaves the store named. -/
theorem Named.of_same (h : s.Named) (hst : ∀ v b, t.variableAt? v = some b →
    ∃ a, s.variableAt? v = some a ∧ b.name = a.name ∧ b.defs = a.defs) : t.Named := by
  intro v b d hb hd
  obtain ⟨a, ha, hname, hdefs⟩ := hst v b hb
  rw [hname]
  exact h v a d ha (hdefs ▸ hd)

theorem Named.of_vars (h : s.Named) (hst : ∀ v, t.variableAt? v = s.variableAt? v) : t.Named :=
  h.of_same fun v b hb => ⟨b, (hst v).symm.trans hb, rfl, rfl⟩

theorem Named.bindNew (h : s.Named) {key : Name} {var : Variable}
    (hvar : ∀ d ∈ var.defs, Name.ofTree? (d.name.value.get "name") = Name.ofTree? var.name) :
    (s.bindNew i key var).Named := by
  intro v b d hb hd
  obtain ⟨-, rfl⟩ | hb := variableAt?_bindNew_cases hb
  · exact hvar d hd
  · exact h v b d hb hd

/-! ### Actions of a walk -/

theorem Named.define (h : s.Named) (hs : s.Sound) {d : Definition} {w : Option VariableId}
    (hn : d.name = n) (hd : (define i n d).outcome s = (.ok w, t)) : t.Named := by
  obtain ⟨-, -, rfl⟩ | ⟨-, key, a, hk, ha, ⟨v, hf, -, rfl⟩ | ⟨hf, -, rfl⟩⟩ := define_ok_iff.1 hd
  · exact h
  · obtain ⟨var, hvar, -, hname⟩ := hs.of_find? ha hf
    intro w b e hb he
    obtain ⟨rfl, x, hx, rfl⟩ | ⟨-, hb⟩ := variableAt?_addDefinition_cases hb
    · -- The table is right about names, so the variable found has the name that is bound.
      obtain rfl := Option.some.inj (hvar.symm.trans hx)
      rcases List.mem_append.1 he with he | he
      · exact h v var e hvar he
      · obtain rfl := List.mem_singleton.1 he
        rw [hn, hk, hname]
    · exact h w b e hb he
  · refine h.bindNew ?_
    intro e he
    obtain rfl := List.mem_singleton.1 he
    rw [hn]

theorem Named.enter (h : s.Named) (hs : s.Sound) {kind : ScopeKind} {upper : Option ScopeId}
    (he : (enter kind n upper).outcome s = (.ok i, t)) : t.Named := by
  obtain ⟨u, ho, hp⟩ := enter_ok_iff.1 he
  have husound : u.Sound :=
    Changes.sound (Quiets.changes (openScope_quiets (A := fun _ => True) ho fun _ _ => trivial)) hs
  have hu : u.Named := by
    obtain ⟨above, strict, -, -, -, -, rfl⟩ := openScope_ok_iff.1 ho
    exact h.of_vars fun v => by rw [variableAt?_record, variableAt?_addScope]
  obtain rfl | ⟨v, hv⟩ | ⟨w, hw⟩ := provide_ok hp
  · exact hu
  · obtain ⟨-, rfl⟩ := bindNew_ok_iff.1 hv
    exact hu.bindNew nofun
  · exact hu.define husound (n := n.get "id") rfl hw

theorem Named.settle (h : s.Named) {r : ReferenceId} (hr : (settle i r).outcome s = (.ok (), t)) :
    t.Named := by
  obtain ⟨ref, key, a, -, -, -, ⟨v, -, rfl⟩ | ⟨-, hup⟩⟩ := settle_ok_iff.1 hr
  · refine h.of_same ?_
    intro w b hb
    obtain ⟨-, a, ha, rfl⟩ | ⟨-, hb⟩ := variableAt?_link_cases hb
    · exact ⟨a, ha, rfl, rfl⟩
    · exact ⟨b, hb, rfl, rfl⟩
  · obtain ⟨a, -, ⟨-, rfl⟩ | ⟨w, above, -, -, -, rfl⟩⟩ := handUp_ok_iff.1 hup
    · exact h.of_vars fun _ => rfl
    · exact h.of_vars fun _ => rfl

theorem Named.close (h : s.Named) (hs : s.Sound) {up : Option ScopeId}
    (hc : (close i).outcome s = (.ok up, t)) : t.Named := by
  obtain ⟨scope, pending, u, w, last, -, -, hb, hset, -, -, -, rfl⟩ := close_ok_iff.1 hc
  have hu : u.Named := by
    refine (bindImplicits_induction (P := fun v => v.Sound ∧ v.Named) hb ⟨hs, h⟩ ?_).2
    rintro c v v' ⟨hv, hn⟩ hm
    obtain ⟨x, y, key, hd, -, rfl⟩ := makeImplicit_ok_iff.1 hm
    have hy : y.Named := hn.define hv (n := c.pattern) rfl hd
    exact ⟨(makeImplicit_quiets hv hm).changes.sound hv, hy.of_vars fun _ => rfl⟩
  have hw : w.Named := by
    refine settleAll_induction (P := fun _ v => v.Named) hset hu ?_ ?_
    · intro r l v v' hv hr
      exact hv.settle hr
    · intro r l v hv
      exact hv.of_vars fun _ => variableAt?_updateScopes ..
  exact hw.of_vars fun _ => rfl

end Store

/-! ### A whole walk -/

namespace Walk

variable {m m' : Moment} {ops : List Operation}

theorem Moment.Good.named_step (h : m.Good) (hn : m.store.Named) {op : Option Operation}
    (hs : Step m op m') : m'.store.Named := by
  have hsound := h.disciplined.sound
  cases hs with
  | @act c e todo rest s t op out he hop =>
      have htidy := (h.tidy _ List.mem_cons_self).1
      cases Event.does he hop with
      | define _ hd => exact hn.define hsound htidy hd
      | refer _ hr =>
          obtain ⟨-, -, rfl⟩ | ⟨-, -, rfl, -⟩ := refer_ok_iff.1 hr
          · exact hn
          · exact hn.of_vars fun _ => rfl
      | callEval => exact hn.of_vars fun _ => variableAt?_updateScopes ..
      | useThis => exact hn.of_vars fun _ => rfl
  | enter he => exact hn.enter hsound (Operation.applyTo_enter_ok.1 he)
  | leave hc =>
      obtain ⟨up, -, hc⟩ := Operation.applyTo_close_ok.1 hc
      exact hn.close hsound hc
  | needScope => exact hn
  | phase => exact hn.of_vars fun _ => rfl
  | keep _ => exact hn

/-- **At every moment of a walk, the definitions of a variable bind its name.** -/
theorem Moment.Good.named (h : m.Good) (hn : m.store.Named) (hs : Steps m ops m') :
    m'.store.Named := by
  induction hs with
  | refl => exact hn
  | more hs _ ih => exact ih (h.step hs) (h.named_step hn hs)

end Walk

end LexScope
