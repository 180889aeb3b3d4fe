import Codegen.Proofs.Contour

/-! What stands in a program. The labels that its items name exist, and items that name variables stand in functions. -/
namespace Codegen
open List ItemSeq

namespace Session
variable {s s' : Session} {id : ItemId}

/-- The item stands behind the opening item of a function, and in front of its closing item if there is one. -/
def Houses (s : Session) (x : ItemId) : Prop :=
  ∃ f r, s.functions[FunctionId.index f]? = some r ∧ [r.item, x].Sublist s.items.order ∧
    ∀ stop, r.stop = some stop → [x, stop].Sublist s.items.order

/-- What holds of the items of a program at every moment while it is built. -/
structure Admitted (s : Session) : Prop where
  named : ∀ {x item l}, s.items.get? x = some item → l ∈ item.kind.names → l.index < s.labels.size
  housed : ∀ {x item v}, x ∈ s.items.order → s.items.get? x = some item → v ∈ item.kind.vars → s.Houses x
  exits : ∀ {f r}, s.functions[FunctionId.index f]? = some r → r.exitLabel.index < s.labels.size

theorem Houses.grow (h : s.Houses x) (hf : s'.functions = s.functions) (ho : s.items.order <+: s'.items.order) :
    s'.Houses x := by
  obtain ⟨f, r, hr, hx, hstop⟩ := h
  exact ⟨f, r, hf ▸ hr, hx.trans ho.sublist, fun stop hs => (hstop stop hs).trans ho.sublist⟩

namespace Admitted

section
variable (h : s.Admitted)
include h

theorem quiet (hi : s'.items = s.items) (hl : s'.labels = s.labels) (hf : s'.functions = s.functions) :
    s'.Admitted where
  named hx hmem := hl ▸ h.named (hi ▸ hx) hmem
  housed hx hi' hv := (h.housed (hi ▸ hx) (hi ▸ hi') hv).grow hf (hi ▸ prefix_refl _)
  exits hr := hl ▸ h.exits (hf ▸ hr)

theorem create {kind : ItemKind} {labels : Array ItemId} (hm : ∀ x ∈ s.items.order, x.index < s.items.size)
    (hl : s.labels.size ≤ labels.size)
    (hk : ∀ l ∈ kind.names, l.index < labels.size) :
    Admitted { s with items := (s.items.create kind).2, labels } where
  named hx hmem := by
    rcases get?_create_cases hx with hx | ⟨rfl, rfl⟩
    · exact (h.named hx hmem).trans_le hl
    · exact hk _ hmem
  housed {x item v} hx hi hv := (h.housed hx (get?_create_of_lt (hm x hx) ▸ hi) hv).grow rfl (prefix_refl _)
  exits hr := (h.exits hr).trans_le hl

theorem link (hin : ∀ item v, s.items.get? id = some item → v ∈ item.kind.vars →
    ∃ f r, s.functions[FunctionId.index f]? = some r ∧ r.stop = none ∧ r.item ∈ s.items.order) :
    Admitted { s with items := s.items.link id } where
  named hx hmem := h.named hx hmem
  housed {x item v} hx hi hv := by
    by_cases hold : x ∈ s.items.order
    · exact (h.housed hold hi hv).grow rfl (prefix_link _ _)
    obtain rfl := (mem_of_grown hx).resolve_right hold
    obtain ⟨f, r, hr, hs, hmem⟩ := hin item v hi hv
    have hbefore : [r.item, x].Sublist (s.items.link x).order :=
      order_link hold ▸ (singleton_sublist.mpr hmem).append (.refl [x])
    refine ⟨f, r, hr, hbefore, fun stop hs' => ?_⟩
    cases hs ▸ hs'
  exits hr := h.exits hr

theorem linkTarget {label : LabelId} (hb : s.WellBuilt) (hl : s.labels[label.index]? = some id) :
    Admitted { s with items := s.items.link id } := by
  obtain ⟨t, ht, -⟩ := hb.labels hl
  refine h.link fun item v hi hmem => ?_
  cases ht ▸ hi
  cases hmem

theorem addFunction {current : Option FunctionId} (hr : r.exitLabel.index < s.labels.size) :
    Admitted { s with functions := s.functions.push r, current } where
  named hx hmem := h.named hx hmem
  housed hx hi hv := by
    obtain ⟨f, r', hr', hin, hstop⟩ := h.housed hx hi hv
    refine ⟨f, r', ?_, hin, hstop⟩
    rwa [Array.getElem?_push, if_neg (ne_of_lt (Array.getElem?_eq_some_iff.mp hr').1)]
  exits hr' := by
    rw [Array.getElem?_push] at hr'
    split at hr'
    · cases hr'
      exact hr
    · exact h.exits hr'

theorem openFunction (hm : ∀ x ∈ s.items.order, x.index < s.items.size) {record : FunctionRecord}
    (he : s.items.get? entry = some { kind := .target t })
    (hr : record.exitLabel.index < s.labels.size) : Admitted { s with
      items := ((s.items.create (.function ⟨s.functions.size⟩)).2.link ⟨s.items.size⟩).link entry
      functions := s.functions.push record
      current := some ⟨s.functions.size⟩ } := by
  have hitem : Admitted { s with items := (s.items.create (.function ⟨s.functions.size⟩)).2 } :=
    h.create hm (le_refl _) fun l hl => by cases hl
  have hlinked : Admitted { s with items := (s.items.create (.function ⟨s.functions.size⟩)).2.link ⟨s.items.size⟩ } :=
    hitem.link fun item v hi hv => by
    cases get?_create_self ▸ hi
    cases hv
  refine (hlinked.addFunction hr).link fun item v hi hv => ?_
  cases ((get?_create_of_lt (lt_size_of_get? he)).trans he).symm.trans hi
  cases hv

theorem closeFunction {current : Option FunctionId} {f : FunctionId} {stop : ItemId}
    (ho : s.items.order = A ++ [stop]) (hstop : ∀ item, s.items.get? stop = some item → item.kind.vars = []) :
    Admitted { s with functions := s.functions.modify f.index ({ · with stop := some stop }), current } where
  named hx hmem := h.named hx hmem
  housed {x item v} hx hi hv := by
    obtain ⟨g, r, hr, hin, hlast⟩ := h.housed hx hi hv
    by_cases hgf : f.index = g.index
    · refine ⟨g, { r with stop := some stop }, by simp [Array.getElem?_modify, hgf, hr], hin, fun stop' hs => ?_⟩
      cases hs
      have hx' : x ∈ A ++ [stop] := ho ▸ hx
      rcases mem_append.mp hx' with hA | hs
      · rw [ho]
        exact (singleton_sublist.mpr hA).append (.refl [stop])
      cases mem_singleton.mp hs
      rw [hstop item hi] at hv
      cases hv
    · exact ⟨g, r, by simp [Array.getElem?_modify, hgf, hr], hin, hlast⟩
  exits hr := by
    rw [Array.getElem?_modify] at hr
    split at hr
    · obtain ⟨r, hr', rfl⟩ := Option.map_eq_some_iff.mp hr
      exact (h.exits hr' :)
    · exact h.exits hr

theorem setTarget {item : Item} (hi : s.items.get? id = some item)
    (hk : item.kind = .target t) (hn : t'.label = t.label) : (s.withKind id (.target t')).Admitted := by
  refine ⟨fun {x item' l} hx hmem => ?_, fun {x item' v} ho hx hv => ?_, h.exits⟩
  · rcases get?_modify_cases hx with ⟨-, hx⟩ | ⟨rfl, _, -, rfl⟩
    · exact h.named hx hmem
    · rw [ItemKind.names, hn] at hmem
      exact h.named hi (by rw [hk]; exact hmem)
  · rcases get?_modify_cases hx with ⟨-, hx⟩ | ⟨-, _, -, rfl⟩
    · exact (h.housed ho hx hv).grow rfl (prefix_refl _)
    · cases hv

end

end Admitted

end Session

namespace Builder

theorem Act.admitted (h : Act c s s') (hb : s.WellBuilt) (ha : s.Admitted) : s'.Admitted := by
  cases h with
  | append hk hin hv hl =>
    refine (ha.create hb.made (le_refl _) hl).link fun item v hi hmem => ?_
    cases get?_create_self ▸ hi
    obtain ⟨f, hf, -⟩ := hv v hmem
    obtain ⟨r, hr⟩ := hb.open_record hf
    exact ⟨f, r, hr⟩
  | bind hl => exact ha.linkTarget hb hl
  | label => exact ha.create hb.made (by simp) fun l hl => by simp [mem_singleton.mp hl]
  | target hi hs hl => exact ha.setTarget hi rfl hl
  | var | priority | prototype => exact ha.quiet rfl rfl rfl
  | opens ho hcur hentry hid hne hexit =>
    obtain ⟨t, ht, -⟩ := hb.labels hentry
    exact (ha.openFunction hb.made ht hexit).quiet rfl rfl rfl
  | @closes f record exit hf hr hexit hid =>
    have hmade := hb.made_link hid (inside_of_label hb hexit ⟨0⟩).1
    have hitem : Session.Admitted { s with items := ((s.items.link exit).create (.functionEnd f)).2 } :=
      (ha.linkTarget hb hexit).create hmade (le_refl _) nofun
    have hlast : Session.Admitted { s with items := ((s.items.link exit).create (.functionEnd f)).2.link ⟨s.items.size⟩ } :=
      hitem.link fun item v hi hmem => by
        cases get?_create_self ▸ hi
        cases hmem
    refine hlast.closeFunction (order_link fun hx => lt_irrefl _ (hmade _ hx)) fun item hi => ?_
    cases get?_create_self ▸ hi
    rfl

theorem program_admitted (h : program calls { options } = .ok u s) : s.Admitted := by
  exact (program_induct (fun _ _ _ _ h => h.admitted)
    ⟨fun hx => (by cases hx), fun hx => (by cases hx), fun hr => by cases hr⟩ h).2

end Builder

end Codegen
