import Codegen.Proofs.Roles

/-! The shape of a program as it is built: each target binds its own label, each function is opened by its own item,
with its entry right behind it, and the exit of a closed function stands inside it. -/
namespace Codegen
open List ItemSeq
variable {record : FunctionRecord} {kind : ItemKind}

/-- Items that something else of the program refers to: the targets of labels, and the openings of functions. -/
def Role.founds : Role → Bool
  | binds _ => true
  | opens _ => true
  | _ => false

namespace Session
variable {s : Session} {id : ItemId}

/-- What holds of the shape of a program at every moment while it is built. -/
structure Contoured (s : Session) : Prop where
  bound : ∀ {x l}, s.roleAt x = .binds l → s.labels[l.index]? = some x
  opened : ∀ {x f}, s.roleAt x = .opens f → ∃ r, s.functions[f.index]? = some r ∧ r.item = x
  exits : ∀ {f r stop}, s.functions[FunctionId.index f]? = some r → r.stop = some stop →
    ∃ e, s.labels[r.exitLabel.index]? = some e ∧ [r.item, e, stop].Sublist s.items.order
  entries : ∀ {f r}, s.functions[FunctionId.index f]? = some r → r.entryLabel ≠ r.exitLabel ∧
    ∃ e, s.labels[r.entryLabel.index]? = some e ∧ [r.item, e] <:+: s.items.order

/-- A step of building that neither makes a label nor opens or closes a function. -/
structure Widens (s s' : Session) : Prop where
  roles : ∀ x, s'.roleAt x = s.roleAt x ∨ (s'.roleAt x).founds = false
  labels : s'.labels = s.labels
  functions : s'.functions = s.functions
  order : s.items.order <+: s'.items.order

theorem Widens.refl_of (hi : s'.items = s.items) (hl : s'.labels = s.labels) (hf : s'.functions = s.functions) :
    s.Widens s' :=
  ⟨fun x => .inl (by rw [roleAt, roleAt, hi]), hl, hf, hi ▸ prefix_rfl⟩

theorem roleAt_create (s : Session) (kind : ItemKind) (x : ItemId) :
    ({ s with items := (s.items.create kind).2 } : Session).roleAt x =
      if x = ⟨s.items.size⟩ then kind.role else s.roleAt x := by
  split
  · rename_i hx
    subst hx
    rw [roleAt, get?_create_self]
    rfl
  rename_i hx
  by_cases hlt : x.index < s.items.size
  · rw [roleAt, roleAt, get?_create_of_lt hlt]
  have hne : x.index ≠ s.items.size := fun he => hx (congrArg ItemId.mk he)
  rw [roleAt_of_size_le (not_lt.mp hlt)]
  refine roleAt_of_size_le ?_
  simp only [create, size, Array.size_push]
  simp only [size] at hlt hne
  omega

theorem Widens.create (hk : kind.role.founds = false) : s.Widens { s with items := (s.items.create kind).2 } := by
  refine ⟨fun x => ?_, rfl, rfl, prefix_rfl⟩
  rw [roleAt_create]
  split
  · exact .inr hk
  · exact .inl rfl

theorem Widens.link (s : Session) (id : ItemId) : s.Widens { s with items := s.items.link id } :=
  ⟨fun _ => .inl rfl, rfl, rfl, prefix_link s.items id⟩

theorem Widens.withKind (h : kind.role = s.roleAt id) : s.Widens (s.withKind id kind) := by
  have hk : s.Retains (fun _ => False) (s.withKind id kind) := (Lays.withKind h).toRetains
  refine ⟨fun x => .inl ?_, rfl, rfl, prefix_rfl⟩
  by_cases hx : x.index < s.items.size
  · exact hk.kept hx
  rw [roleAt_of_size_le (not_lt.mp hx)]
  refine roleAt_of_size_le ?_
  simpa [Session.withKind, ItemSeq.modify, size] using hx

namespace Contoured

theorem widen (h : s.Contoured) (hw : s.Widens s') : s'.Contoured where
  bound {x l} hx := by
    rw [hw.labels]
    rcases hw.roles x with he | hne
    · exact h.bound (he ▸ hx)
    · rw [hx] at hne
      cases hne
  opened {x f} hx := by
    rw [hw.functions]
    rcases hw.roles x with he | hne
    · exact h.opened (he ▸ hx)
    · rw [hx] at hne
      cases hne
  exits hr hs := by
    rw [hw.functions] at hr
    obtain ⟨e, he, ho⟩ := h.exits hr hs
    exact ⟨e, hw.labels ▸ he, ho.trans hw.order.sublist⟩
  entries hr := by
    rw [hw.functions] at hr
    obtain ⟨hne, e, he, ho⟩ := h.entries hr
    exact ⟨hne, e, hw.labels ▸ he, ho.trans hw.order.isInfix⟩

theorem addLabel (h : s.Contoured) : Contoured { s with
    items := (s.items.create (.target { label := ⟨s.labels.size⟩ })).2
    labels := s.labels.push ⟨s.items.size⟩ } where
  bound {x l} hx := by
    have hx := roleAt_create s _ x ▸ hx
    split at hx
    · cases hx
      simp_all
    have hl := h.bound hx
    have hlt := (Array.getElem?_eq_some_iff.mp hl).1
    rwa [Array.getElem?_push, if_neg (hlt.ne)]
  opened {x f} hx := by
    have hx := roleAt_create s _ x ▸ hx
    split at hx
    · cases hx
    · exact h.opened hx
  exits hr hs := by
    obtain ⟨e, he, ho⟩ := h.exits hr hs
    refine ⟨e, ?_, ho⟩
    rwa [Array.getElem?_push, if_neg (ne_of_lt (Array.getElem?_eq_some_iff.mp he).1)]
  entries hr := by
    obtain ⟨hne, e, he, ho⟩ := h.entries hr
    refine ⟨hne, e, ?_, ho⟩
    rwa [Array.getElem?_push, if_neg (ne_of_lt (Array.getElem?_eq_some_iff.mp he).1)]

theorem openFunction (h : s.Contoured) (hi : record.item = ⟨s.items.size⟩)
    (hs : record.stop = none) (hentry : s.labels[record.entryLabel.index]? = some entry)
    (hne : record.entryLabel ≠ record.exitLabel) (hnew : ⟨s.items.size⟩ ∉ s.items.order) (hid : entry ∉ s.items.order)
    (hlt : entry.index < s.items.size) : Contoured { s with
      items := ((s.items.create (.function ⟨s.functions.size⟩)).2.link ⟨s.items.size⟩).link entry
      functions := s.functions.push record
      current := some ⟨s.functions.size⟩ } where
  bound {x l} hx := by
    have hx := roleAt_create s _ x ▸ hx
    split at hx
    · cases hx
    · exact h.bound hx
  opened {x f} hx := by
    have hx := roleAt_create s _ x ▸ hx
    split at hx
    · rename_i he
      cases hx
      exact ⟨record, by simp, hi.trans he.symm⟩
    obtain ⟨r, hr, hrx⟩ := h.opened hx
    refine ⟨r, ?_, hrx⟩
    rwa [Array.getElem?_push, if_neg (ne_of_lt (Array.getElem?_eq_some_iff.mp hr).1)]
  exits {f r stop} hr hst := by
    rw [Array.getElem?_push] at hr
    split at hr
    · cases hr
      cases hs ▸ hst
    · obtain ⟨e, he, ho⟩ := h.exits hr hst
      exact ⟨e, he, ho.trans ((prefix_link _ _).sublist.trans (prefix_link _ _).sublist)⟩
  entries {f r} hr := by
    rw [Array.getElem?_push] at hr
    split at hr
    · cases hr
      refine ⟨hne, entry, hentry, s.items.order, [], ?_⟩
      have hfirst : ((s.items.create (.function ⟨s.functions.size⟩)).2.link ⟨s.items.size⟩).order =
          s.items.order ++ [⟨s.items.size⟩] := order_link hnew
      have hentry' : entry ≠ ⟨s.items.size⟩ := fun he => (he ▸ hlt).ne rfl
      rw [order_link (by simpa [hfirst, hentry'] using hid), hfirst, hi]
      simp
    · obtain ⟨hne, e, he, ho⟩ := h.entries hr
      exact ⟨hne, e, he, ho.trans ((prefix_link _ _).trans (prefix_link _ _)).isInfix⟩

/-- The open function is closed: its exit is bound and its last item is put behind it. -/
theorem closeFunction (h : s.Contoured)
    (hr : s.functions[f.index]? = some record) (hexit : s.labels[record.exitLabel.index]? = some exit)
    (hitem : record.item ∈ s.items.order) (hnew : ⟨s.items.size⟩ ∉ s.items.order) (hid : exit ∉ s.items.order)
    (hlt : exit.index < s.items.size) : Contoured { s with
      items := ((s.items.link exit).create (.functionEnd f)).2.link ⟨s.items.size⟩
      functions := s.functions.modify f.index ({ · with stop := some ⟨s.items.size⟩ })
      current := none } where
  bound {x l} hx := by
    have hx := (roleAt_create { s with items := s.items.link exit } _ x) ▸ hx
    split at hx
    · cases hx
    · exact h.bound hx
  opened {x g} hx := by
    have hx := (roleAt_create { s with items := s.items.link exit } _ x) ▸ hx
    split at hx
    · cases hx
    obtain ⟨r, hr, hrx⟩ := h.opened hx
    simp only [Array.getElem?_modify, hr]
    split <;> exact ⟨_, rfl, hrx⟩
  exits {g r stop} hg hst := by
    have horder : (((s.items.link exit).create (.functionEnd f)).2.link ⟨s.items.size⟩).order =
        s.items.order ++ [exit, ⟨s.items.size⟩] := by
      have hexit' : (⟨s.items.size⟩ : ItemId) ≠ exit := fun he => (he ▸ hlt).ne rfl
      have hfirst : ((s.items.link exit).create (.functionEnd f)).2.order = s.items.order ++ [exit] := order_link hid
      rw [order_link (by simpa [hfirst, hexit'] using hnew), hfirst]
      simp
    rw [horder]
    rw [Array.getElem?_modify] at hg
    split at hg
    · rename_i hfg
      rw [← hfg, hr] at hg
      cases hg
      cases hst
      exact ⟨exit, hexit, (singleton_sublist.mpr hitem).append (.refl _)⟩
    · obtain ⟨e, he, ho⟩ := h.exits hg hst
      exact ⟨e, he, ho.trans (sublist_append_left _ _)⟩
  entries {g r} hg := by
    have hprefix : s.items.order <+: (((s.items.link exit).create (.functionEnd f)).2.link ⟨s.items.size⟩).order :=
      (prefix_link _ _).trans (prefix_link _ _)
    rw [Array.getElem?_modify] at hg
    split at hg
    · obtain ⟨r, hr, rfl⟩ := Option.map_eq_some_iff.mp hg
      obtain ⟨hne, e, he, ho⟩ := h.entries hr
      exact ⟨hne, e, he, ho.trans hprefix.isInfix⟩
    · obtain ⟨hne, e, he, ho⟩ := h.entries hg
      exact ⟨hne, e, he, ho.trans hprefix.isInfix⟩

end Contoured

theorem Contoured.labelled (h : s.Contoured) (hb : s.WellBuilt) : s.Labelled where
  nodup := hb.nodup
  made := hb.made
  targets {l x} := by
    refine ⟨fun hl => ?_, h.bound⟩
    obtain ⟨t, hi, -, ht⟩ := hb.labels hl
    rw [roleAt_of_get? hi]
    exact congrArg Role.binds ht

end Session

namespace Builder

theorem Call.Appends.founds {c : Call} (h : c.Appends kind) : kind.role.founds = false := by
  cases c <;> first | (obtain ⟨_, rfl⟩ := h; rfl) | cases h

theorem Act.contoured (h : Act c s s') (hs : s.WellBuilt) (hc : s.Contoured) : s'.Contoured := by
  cases h with
  | append hk => exact (hc.widen (.create hk.founds)).widen (.link _ _)
  | bind => exact hc.widen (.link _ _)
  | label => exact hc.addLabel
  | target hi hst hl =>
    refine hc.widen (.withKind ?_)
    rw [Session.roleAt_of_get? hi]
    exact congrArg Role.binds hl
  | var | priority | prototype => exact hc.widen (.refl_of rfl rfl rfl)
  | opens ho hcur hentry hid hne hexit hi hst =>
    have hlt := (inside_of_label hs hentry ⟨0⟩).1
    exact (hc.openFunction hi hst hentry hne (not_mem_new hs) hid hlt).widen (.refl_of rfl rfl rfl)
  | closes hf hr hexit hid =>
    obtain ⟨r, hr', -, hmem⟩ := hs.open_record hf
    cases hr ▸ hr'
    exact hc.closeFunction hr hexit hmem (not_mem_new hs) hid (inside_of_label hs hexit ⟨0⟩).1

theorem program_contoured (h : program calls { options } = .ok u s) : s.WellBuilt ∧ s.Contoured := by
  have hnone : ∀ x, ({ options } : Session).roleAt x = .inner := fun x => Session.roleAt_of_size_le (Nat.zero_le _)
  exact program_induct (fun _ _ _ _ h => h.contoured)
    ⟨fun {x l} hx => by simp [hnone] at hx, fun {x f} hx => by simp [hnone] at hx, by simp, by simp⟩ h

end Builder

end Codegen
