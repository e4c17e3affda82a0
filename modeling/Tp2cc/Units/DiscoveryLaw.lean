import Tp2cc.Units.DiscoveryState

/-! What following a use, a uses list, a file and the files that are left makes of a discovery. -/
set_option autoImplicit false

namespace Tp2cc.Discovery
open Relation Order

section
variable {α : Type} [DecidableEq α] {p : Project α} {s s' : State α}

structure Visited (p : Project α) (b : α) (s : State α) (n : Nat) (s' : State α) : Prop where
  inv : Inv p s'
  old : ∀ q x, s.session q = some x → s'.session q = some x
  fresh : ∀ q x, s.session q = none → s'.session q = some x → x.phase ≠ .parsingInterface
  reports : ∃ new, s'.reports = s.reports ++ new ∧
    ∀ r ∈ new, s.session r.path = none ∧ p.Reaches b r.path
  calls : ∃ new, s'.calls = s.calls ++ new ∧ ∀ c ∈ new, s.session c.path = none
  found : (p.load b).isSome → (s'.session b).isSome
  blame : n ≠ 0 → ∃ q, p.Reaches b q ∧ p.Faulty s'.reports q
  unparsed : ¬ p.Parsed b → n ≠ 0

/-- A use has been followed: its file is no longer open, or the cycle is reported. -/
def Handled (p : Project α) (s : State α) (a : α) (unit : String) : Prop :=
  ∃ x, s.session a = some x ∧ Settled p s a x unit ∧
    ∀ b, p.unitNamed unit = some b → p.Parsed b →
      (∃ y, s.session b = some y ∧ y.phase ≠ .parsingInterface) ∨
        ∃ r ∈ s.reports, r.path = a ∧ r.fault = .cycle

structure Imported (p : Project α) (a : α) (units : List String) (s s' : State α) : Prop where
  inv : Inv p s'
  others : ∀ q x, q ≠ a → s.session q = some x → s'.session q = some x
  self : ∀ x, s.session a = some x → ∃ hadError,
    s'.session a = some { x with hadError := hadError } ∧ (x.hadError = true → hadError = true)
  fresh : ∀ q x, s.session q = none → s'.session q = some x → x.phase ≠ .parsingInterface
  reports : ∃ new, s'.reports = s.reports ++ new ∧
    ∀ r ∈ new, r.path = a ∨ s.session r.path = none ∧ p.Reaches a r.path
  calls : ∃ new, s'.calls = s.calls ++ new ∧ ∀ c ∈ new, s.session c.path = none
  handled : ∀ unit ∈ units, Handled p s' a unit

theorem Imported.isSome {a b : α} {units : List String} (h : Imported p a units s s')
    (hb : (s.session b).isSome) : (s'.session b).isSome := by
  obtain ⟨x, hx⟩ := Option.isSome_iff_exists.mp hb
  by_cases hba : b = a
  · obtain ⟨e, he, -⟩ := h.self x (hba ▸ hx)
    simp [hba, he]
  · simp [h.others b x hba hx]

theorem Imported.absent {a b : α} {units : List String} (h : Imported p a units s s')
    (hb : s'.session b = none) : s.session b = none := by
  by_contra hs
  have hs' := h.isSome (Option.isSome_iff_ne_none.mpr hs)
  simp [hb] at hs'

theorem Handled.mono {a : α} {units : List String} {unit : String} (hu : Handled p s a unit)
    (h : Imported p a units s s') : Handled p s' a unit := by
  obtain ⟨x, hx, hsettled, hfirst⟩ := hu
  obtain ⟨e, he, hmark⟩ := h.self x hx
  obtain ⟨new, hr, -⟩ := h.reports
  refine ⟨_, he, hsettled.mono hmark (fun _ => h.isSome) ⟨new, hr⟩, fun b hb hp => ?_⟩
  · rcases hfirst b hb hp with ⟨y, hy, hopen⟩ | ⟨r, hm, hr'⟩
    · left
      by_cases hba : b = a
      · subst hba
        rw [hx] at hy
        cases hy
        exact ⟨_, he, hopen⟩
      · exact ⟨y, h.others b y hba hy, hopen⟩
    · exact .inr ⟨r, hr ▸ List.mem_append_left _ hm, hr'⟩

theorem Imported.refl {a : α} {units : List String} (h : Inv p s)
    (hu : ∀ unit ∈ units, Handled p s a unit) : Imported p a units s s :=
  { inv := h, others := fun _ _ _ hq => hq, self := fun x hx => ⟨x.hadError, hx, id⟩,
    fresh := fun q x hq hq' => by simp [hq] at hq', reports := ⟨[], by simp, by simp⟩,
    calls := ⟨[], by simp, by simp⟩, handled := hu }

theorem Visited.imported {a b : α} {n : Nat} (h : Visited p b s n s') (hab : p.Next a b) :
    Imported p a [] s s' := by
  obtain ⟨new, hr, hnew⟩ := h.reports
  exact { inv := h.inv, others := fun q x _ hq => h.old q x hq,
          self := fun x hx => ⟨x.hadError, h.old a x hx, id⟩, fresh := h.fresh,
          reports := ⟨new, hr, fun r hm => .inr ⟨(hnew r hm).1, .head hab (hnew r hm).2⟩⟩,
          calls := h.calls, handled := by simp }

theorem Imported.fail {a : α} {x : Session} {units : List String} (h : Inv p s)
    (hx : s.session a = some x) (hopen : x.phase ≠ .complete) (new : List (Report α))
    (hnew : ∀ r ∈ new, r.path = a ∧ Justified p r)
    (hb : ∃ b, p.Reaches a b ∧ p.Faulty (s.reports ++ new) b)
    (hnone : ∀ unit ∈ units, p.unitNamed unit = none → new ≠ [])
    (hu : ∀ unit ∈ units, ∀ b, p.unitNamed unit = some b →
      ((p.load b).isSome → (s.session b).isSome) ∧ (p.Parsed b →
        (∃ y, s.session b = some y ∧ y.phase ≠ .parsingInterface) ∨ ∃ r ∈ new, r.fault = .cycle)) :
    Imported p a units s ({ s with reports := s.reports ++ new }.fail a) := by
  have hsession (b : α) : ({ s with reports := s.reports ++ new }.fail a).session b =
      if b = a then some { x with hadError := true } else s.session b := by
    rw [session_fail]
    change (if b = a then (s.session a).map _ else s.session b) = _
    rw [hx]
    rfl
  refine { inv := h.fail hx hopen new hnew hb, others := fun q y hq hy => ?_,
           self := fun y hy => ⟨true, ?_, fun _ => rfl⟩, fresh := fun q y hq hy => ?_,
           reports := ⟨new, by simp, fun r hm => .inl (hnew r hm).1⟩,
           calls := ⟨[], by simp, by simp⟩, handled := fun unit hm => ?_ }
  · rw [hsession, if_neg hq, hy]
  · rw [hx] at hy
    cases hy
    rw [hsession, if_pos rfl]
  · rw [hsession] at hy
    by_cases hqa : q = a
    · subst hqa
      simp [hx] at hq
    · simp [hqa, hq] at hy
  · refine ⟨_, by rw [hsession, if_pos rfl], ⟨fun hb => ⟨rfl, ?_⟩, fun b hb hl => ?_,
      fun _ _ _ => rfl⟩, fun b hb hp => ?_⟩
    · obtain ⟨r, hr⟩ := List.exists_mem_of_ne_nil new (hnone unit hm hb)
      exact ⟨r, by simp [hr], (hnew r hr).1⟩
    · rw [hsession]
      split
      · rfl
      · exact (hu unit hm b hb).1 hl
    · rcases (hu unit hm b hb).2 hp with ⟨y, hy, hphase⟩ | ⟨r, hr, hcycle⟩
      · left
        rw [hsession]
        by_cases hba : b = a
        · subst hba
          rw [hx] at hy
          cases hy
          exact ⟨_, if_pos rfl, hphase⟩
        · exact ⟨y, by rw [if_neg hba, hy], hphase⟩
      · exact .inr ⟨r, by simp [hr], (hnew r hr).1, hcycle⟩

theorem Imported.append {a : α} {units units' : List String} {s₁ s₂ s₃ : State α}
    (h : Imported p a units s₁ s₂) (h' : Imported p a units' s₂ s₃)
    (ha : (s₁.session a).isSome) : Imported p a (units ++ units') s₁ s₃ := by
  obtain ⟨new, hr, hnew⟩ := h.reports
  obtain ⟨new', hr', hnew'⟩ := h'.reports
  obtain ⟨newc, hc, hnewc⟩ := h.calls
  obtain ⟨newc', hc', hnewc'⟩ := h'.calls
  refine { inv := h'.inv, others := fun q x hq hx => h'.others q x hq (h.others q x hq hx),
           self := fun x hx => ?_, fresh := fun q x hq hq' => ?_,
           reports := ⟨new ++ new', by rw [hr', hr, List.append_assoc], fun r hm => ?_⟩,
           calls := ⟨newc ++ newc', by rw [hc', hc, List.append_assoc], fun c hm => ?_⟩,
           handled := fun unit hm => ?_ }
  · obtain ⟨e, he, hmark⟩ := h.self x hx
    obtain ⟨e', he', hmark'⟩ := h'.self _ he
    exact ⟨e', he', fun hx => hmark' (hmark hx)⟩
  · cases hq₂ : s₂.session q with
    | none => exact h'.fresh q x hq₂ hq'
    | some y =>
      have hopen := h.fresh q y hq hq₂
      have hqa : q ≠ a := by
        rintro rfl
        simp [hq] at ha
      have hy := h'.others q y hqa hq₂
      rw [hq'] at hy
      cases hy
      exact hopen
  · rcases List.mem_append.mp hm with hm | hm
    · exact hnew r hm
    · exact (hnew' r hm).imp id fun h₂ => ⟨h.absent h₂.1, h₂.2⟩
  · rcases List.mem_append.mp hm with hm | hm
    · exact hnewc c hm
    · exact h.absent (hnewc' c hm)
  · rcases List.mem_append.mp hm with hm | hm
    · exact (h.handled unit hm).mono h'
    · exact h'.handled unit hm

theorem Good.not_failed {a : α} {x : Session} {text : Text} (h : Good p s a x text)
    (hn : text.named) : x.phase ≠ .failed := by
  intro hx
  rcases h.phase with ⟨hp, -⟩ | ⟨-, hp | ⟨-, hp⟩⟩
  · simp [hx] at hp
  · rw [hx] at hp
    rcases hn with hn | hn <;> simp [Text.phase, hn] at hp
  · simp [hx] at hp

def Visits (p : Project α) (f : α → State α → Option (Nat × State α)) (s : State α) : Prop :=
  ∀ b, p.Reaches p.entry b → (∀ y, s.session b = some y → y.phase ≠ .parsingInterface) →
    (∀ q y, s.session q = some y → y.phase = .parsingInterface → ReflTransGen p.NextFirst q b) →
    (b = p.entry ∨ (s.session p.entry).isSome) →
    ∃ n s', f b s = some (n, s') ∧ Visited p b s n s'

/-- The file of `a` uses `unit`, at a time when no file is open that is not in need of `a`. -/
structure Asks (p : Project α) (s : State α) (a : α) (unit : String) : Prop where
  next : ∀ b, p.unitNamed unit = some b → p.Next a b
  unresolved : p.unitNamed unit = none → p.Unresolved a
  stack : ∀ b, p.unitNamed unit = some b → ∀ q y, s.session q = some y →
    y.phase = .parsingInterface → p.NextFirst a b ∧ ReflTransGen p.NextFirst q a

section
variable {a b : α} {x : Session} {unit : String}

theorem Imported.mark (h : Inv p s) (hx : s.session a = some x) (hopen : x.phase ≠ .complete)
    (hunit : p.unitNamed unit = some b) (hl : (p.load b).isSome → (s.session b).isSome)
    (new : List (Report α)) (hnew : ∀ r ∈ new, r.path = a ∧ Justified p r)
    (hf : ∃ b, p.Reaches a b ∧ p.Faulty (s.reports ++ new) b)
    (hclosed : p.Parsed b → (∃ y, s.session b = some y ∧ y.phase ≠ .parsingInterface) ∨
      ∃ r ∈ new, r.fault = .cycle) :
    Imported p a [unit] s ({ s with reports := s.reports ++ new }.fail a) := by
  refine Imported.fail h hx hopen new hnew hf (fun unit' hm hn => ?_) fun unit' hm b' hb' => ?_
  · rw [List.mem_singleton.mp hm, hunit] at hn
    contradiction
  · rw [List.mem_singleton.mp hm, hunit] at hb'
    cases hb'
    exact ⟨hl, hclosed⟩

theorem Imported.keep (h : Inv p s) (hx : s.session a = some x)
    (hunit : p.unitNamed unit = some b) (hp : p.Parsed b)
    (hclosed : ∃ y, s.session b = some y ∧ y.phase ≠ .parsingInterface) :
    Imported p a [unit] s s := by
  obtain ⟨y, hy, hphase⟩ := hclosed
  refine .refl h fun unit' hm => ?_
  rw [List.mem_singleton.mp hm]
  refine ⟨x, hx, ⟨by simp [hunit], fun b' hb' _ => ?_, fun b' hb' hp' => ?_⟩, fun b' hb' _ => ?_⟩
  · rw [hunit] at hb'
    cases hb'
    simp [hy]
  · rw [hunit] at hb'
    cases hb'
    exact absurd hp hp'
  · rw [hunit] at hb'
    cases hb'
    exact .inl ⟨y, hy, hphase⟩

theorem importUnit_existing (hw : p.WellNamed) (f : α → State α → Option (Nat × State α))
    {imported : String} (h : Inv p s) (hx : s.session a = some x) (hopen : x.phase ≠ .complete)
    (hruntime : p.hasRuntimeUnitModel (toLower imported) = false)
    (hasks : Asks p s a (toLower imported))
    (hname : s.sessionsByName.lookup (toLower imported) = some b) :
    ∃ s', importUnit p f a imported s = some s' ∧ Imported p a [toLower imported] s s' := by
  obtain ⟨hb, hd⟩ := (h.byName _ b).mp hname
  obtain ⟨y, hy⟩ := Option.isSome_iff_exists.mp hb
  obtain ⟨textb, hloadb, hgb⟩ := h.good b y hy
  obtain ⟨textb', hloadb', hnb, -⟩ := declared_named hd
  rw [hloadb] at hloadb'
  cases hloadb'
  have hunit := hw.unitNamed hgb.reached hd
  have hab := hasks.next b hunit
  simp only [importUnit, hruntime, hname, hy, Bool.false_eq_true, if_false]
  by_cases hphase : y.phase = .parsingInterface
  · rw [if_pos hphase]
    obtain ⟨hfirst, hback⟩ := hasks.stack b hunit b y hy hphase
    refine ⟨_, rfl, Imported.mark h hx hopen hunit (fun _ => hb) [_] ?_ ?_ fun _ =>
      .inr ⟨_, List.mem_singleton_self _, rfl⟩⟩
    · intro r hr
      rw [List.mem_singleton.mp hr]
      exact ⟨rfl, .head' hfirst hback⟩
    · exact ⟨a, .refl, .inr (.inr (.inr (.head' hfirst hback)))⟩
  · rw [if_neg hphase]
    by_cases hbad : y.hadError = true ∨ y.phase = .failed
    · rw [if_pos hbad]
      obtain ⟨q, hbq, hq⟩ := hgb.flagged (hbad.resolve_right (hgb.not_failed hnb))
      have hmark := Imported.mark h hx hopen hunit (fun _ => hb) [] (by simp)
        ⟨q, .head hab hbq, by simpa using hq⟩ fun _ => .inl ⟨y, hy, hphase⟩
      exact ⟨_, rfl, by simpa using hmark⟩
    · rw [if_neg hbad]
      exact ⟨s, rfl, .keep h hx hunit (hnb.parsed hloadb) ⟨y, hy, hphase⟩⟩

theorem Inv.closed_of_found (h : Inv p s) (hw : p.WellNamed)
    (hname : s.sessionsByName.lookup unit = none) (hfound : p.findUnitPath unit = some b)
    (y : Session) (hy : s.session b = some y) : y.phase ≠ .parsingInterface := by
  intro hphase
  obtain ⟨textb, hloadb, hgb⟩ := h.good b y hy
  rcases hgb.phase with ⟨-, hnb⟩ | ⟨-, hp | ⟨-, hp⟩⟩
  · have hd : p.declared b = some unit := by
      rcases hw.found _ b textb hfound hloadb with hother | ⟨-, hname'⟩
      · rcases hnb with hnb | hnb <;> simp [hnb] at hother
      · rw [declared_eq hloadb hnb, hname']
    have hs := (h.byName _ b).mpr ⟨by simp [hy], hd⟩
    simp [hname] at hs
  · rw [hphase] at hp
    cases hh : textb.heading <;> simp [Text.phase, hh] at hp
  · simp [hphase] at hp

theorem Visited.closed {n : Nat} (hv : Visited p b s n s')
    (hclosed : ∀ y, s.session b = some y → y.phase ≠ .parsingInterface) (hp : p.Parsed b) :
    ∃ y, s'.session b = some y ∧ y.phase ≠ .parsingInterface := by
  obtain ⟨textb, hloadb, -⟩ := hp
  obtain ⟨y, hy⟩ := Option.isSome_iff_exists.mp (hv.found (by simp [hloadb]))
  refine ⟨y, hy, ?_⟩
  cases hold : s.session b with
  | none => exact hv.fresh b y hold hy
  | some z =>
    have hz := hv.old b z hold
    rw [hy] at hz
    cases hz
    exact hclosed y hold

theorem importUnit_absent (hw : p.WellNamed) {f : α → State α → Option (Nat × State α)}
    {imported : String} (h : Inv p s) (hx : s.session a = some x) (hopen : x.phase ≠ .complete)
    (hruntime : p.hasRuntimeUnitModel (toLower imported) = false)
    (hasks : Asks p s a (toLower imported))
    (hname : s.sessionsByName.lookup (toLower imported) = none) (hf : Visits p f s) :
    ∃ s', importUnit p f a imported s = some s' ∧ Imported p a [toLower imported] s s' := by
  obtain ⟨text, hload, hg⟩ := h.good a x hx
  have hfind : p.unitNamed (toLower imported) = p.findUnitPath (toLower imported) := by
    refine if_neg fun he => ?_
    have hs := (h.byName _ p.entry).mpr ⟨h.entry_isSome hx, he⟩
    simp [hname] at hs
  simp only [importUnit, hruntime, hname, Bool.false_eq_true, if_false]
  cases hfound : p.findUnitPath (toLower imported) with
  | none =>
    rw [hfound] at hfind
    have hnone := hasks.unresolved hfind
    refine ⟨_, rfl, Imported.fail h hx hopen [_] ?_ ⟨a, .refl, .inr (.inl hnone)⟩ (by simp) ?_⟩
    · intro r hr
      rw [List.mem_singleton.mp hr]
      exact ⟨rfl, hnone⟩
    · intro unit hm b' hb'
      rw [List.mem_singleton.mp hm, hfind] at hb'
      contradiction
  | some b =>
    rw [hfound] at hfind
    have hab := hasks.next b hfind
    have hclosed := h.closed_of_found hw hname hfound
    obtain ⟨n, s', hrun, hv⟩ := hf b (hg.reached.tail hab) hclosed
      (fun q y hq hphase => (hasks.stack b hfind q y hq hphase).2.tail
        (hasks.stack b hfind q y hq hphase).1) (.inr (h.entry_isSome hx))
    have hx' := hv.old a x hx
    have hi := hv.imported hab
    simp only [hrun, Option.map_some]
    by_cases hn : n = 0
    · rw [if_pos hn]
      have hp : p.Parsed b := by
        by_contra hp
        exact hv.unparsed hp hn
      exact ⟨s', rfl, hi.append (.keep hv.inv hx' hfind hp (hv.closed hclosed hp)) (by simp [hx])⟩
    · rw [if_neg hn]
      obtain ⟨q, hbq, hq⟩ := hv.blame hn
      have hmark := Imported.mark hv.inv hx' hopen hfind hv.found [] (by simp)
        ⟨q, .head hab hbq, by simpa using hq⟩ fun hp => .inl (hv.closed hclosed hp)
      exact ⟨_, rfl, hi.append (by simpa using hmark) (by simp [hx])⟩

theorem Asks.mono {units : List String} (hasks : Asks p s a unit) (hx : s.session a = some x)
    (hi : Imported p a units s s') : Asks p s' a unit := by
  obtain ⟨e, hx', -⟩ := hi.self x hx
  refine { hasks with stack := fun b hb q y hq hphase => ?_ }
  cases hold : s.session q with
  | none => exact absurd hphase (hi.fresh q y hold hq)
  | some z =>
    refine hasks.stack b hb q z hold ?_
    by_cases hqa : q = a
    · subst hqa
      rw [hx] at hold
      rw [hx'] at hq
      cases hold
      cases hq
      exact hphase
    · rw [hi.others q z hqa hold] at hq
      cases hq
      exact hphase

end

theorem importEach_spec (hw : p.WellNamed) {f : α → State α → Option (Nat × State α)} {a : α}
    {x : Session} {imports : List String} (h : Inv p s) (hx : s.session a = some x)
    (hopen : x.phase ≠ .complete) (hasks : ∀ unit ∈ p.imported imports, Asks p s a unit)
    (hf : ∀ s₁, Inv p s₁ → (∀ q, (s.session q).isSome → (s₁.session q).isSome) → Visits p f s₁) :
    ∃ s', importEach p f a imports s = some s' ∧ Imported p a (p.imported imports) s s' := by
  induction imports generalizing s x with
  | nil => exact ⟨s, rfl, .refl h (by simp [Project.imported])⟩
  | cons imported rest ih =>
    cases hruntime : p.hasRuntimeUnitModel (toLower imported) with
    | true =>
      have hsame : p.imported (imported :: rest) = p.imported rest := by
        simp [Project.imported, hruntime]
      rw [hsame] at hasks ⊢
      obtain ⟨s', hrun, hi⟩ := ih h hx hopen hasks hf
      refine ⟨s', ?_, hi⟩
      simp only [importEach, importUnit, hruntime, if_true]
      exact hrun
    | false =>
      have hcons : p.imported (imported :: rest) = [toLower imported] ++ p.imported rest := by
        simp [Project.imported, hruntime]
      rw [hcons] at hasks ⊢
      have hask := hasks (toLower imported) (by simp)
      obtain ⟨s₁, hrun₁, hi₁⟩ : ∃ s', importUnit p f a imported s = some s' ∧
          Imported p a [toLower imported] s s' := by
        cases hname : s.sessionsByName.lookup (toLower imported) with
        | some b => exact importUnit_existing hw f h hx hopen hruntime hask hname
        | none => exact importUnit_absent hw h hx hopen hruntime hask hname (hf s h fun _ => id)
      obtain ⟨e, hx₁, -⟩ := hi₁.self x hx
      obtain ⟨s', hrun, hi⟩ := ih hi₁.inv hx₁ hopen
        (fun unit hu => (hasks unit (by simp [hu])).mono hx hi₁)
        fun s₂ h₂ hs₂ => hf s₂ h₂ fun q hq => hs₂ q (hi₁.isSome hq)
      refine ⟨s', ?_, hi₁.append hi (by simp [hx])⟩
      simp only [importEach, hrun₁, Option.bind_some]
      exact hrun

section
variable (a : α) (text : Text) (n : Nat)

theorem session_finishParse (b : α) : (finishParse p a text n s).session b =
    if b = a then some ⟨nodeName p a text.parsed,
      ((s.session a).map (·.hadError)).getD false || decide (n ≠ 0), text.phase⟩
    else s.session b :=
  session_setSession a _ b

@[simp] theorem reports_finishParse : (finishParse p a text n s).reports = s.reports := rfl
@[simp] theorem calls_finishParse : (finishParse p a text n s).calls = s.calls := rfl

@[simp] theorem byName_finishParse :
    (finishParse p a text n s).sessionsByName = s.sessionsByName := rfl

end

theorem Inv.finishParse (hw : p.WellNamed) {a : α} {text : Text} {s₁ : State α} {n : Nat}
    (h : Inv p s) (hload : p.load a = some text) (hreach : p.Reaches p.entry a)
    (hentry : a = p.entry ∨ (s.session p.entry).isSome)
    (hnamed : text.named → (s.session a).isSome) (hold : ∀ part, .declarations a part ∉ s.calls)
    (hs : ∀ b ≠ a, s₁.session b = s.session b) (hname : s₁.sessionsByName = s.sessionsByName)
    (hunits : s₁.units = s.units)
    (hreports : ∃ new, s₁.reports = s.reports ++ new ∧ ∀ r ∈ new, r.path = a ∧ Justified p r)
    (hcalls : s₁.calls =
      s.calls ++ if text.named then [.declarations a (decide (text.heading = .unit))] else [])
    (huses : ∀ unit ∈ p.imported text.firstUses, Handled p s a unit)
    (hmark : ∀ x, s.session a = some x → x.hadError = true →
      ((s₁.session a).map (·.hadError)).getD false = true)
    (hflag : ((s₁.session a).map (·.hadError)).getD false = true ∨ n ≠ 0 →
      ∃ b, p.Reaches a b ∧ p.Faulty s₁.reports b)
    (hn : ∀ r ∈ s₁.reports, r.path = a → n ≠ 0)
    (hbad : text.heading = .other → ∃ r ∈ s₁.reports, r.path = a) :
    Inv p (Discovery.finishParse p a text n s₁) := by
  obtain ⟨new, hr, hnew⟩ := hreports
  have hsession (b : α) : (Discovery.finishParse p a text n s₁).session b =
      if b = a then some ⟨p.unitName a,
        ((s₁.session a).map (·.hadError)).getD false || decide (n ≠ 0), text.phase⟩
      else s.session b := by
    rw [session_finishParse, hw.nodeName hload]
    split
    · rfl
    · exact hs b (by assumption)
  have hisSome (b : α) (hb : (s.session b).isSome) :
      ((Discovery.finishParse p a text n s₁).session b).isSome := by
    rw [hsession]
    split
    · rfl
    · exact hb
  have hself : ((Discovery.finishParse p a text n s₁).session a).isSome := by simp [hsession]
  have hphase : text.phase ≠ .parsingInterface := by
    cases hh : text.heading <;> simp [Text.phase, hh]
  have hunit : (Discovery.finishParse p a text n s₁).units.lookup (p.unitName a) =
      some ⟨text.parsed, !(((s₁.session a).map (·.hadError)).getD false || decide (n ≠ 0)) &&
        text.parsed.isSome && decide (text.phase = .complete)⟩ := by
    rw [← hw.nodeName hload]
    exact AList.lookup_insert _
  have hother (b : α) (hba : b ≠ a) (hb : (s.session b).isSome) : p.unitName b ≠ p.unitName a := by
    intro hu
    obtain ⟨y, hy⟩ := Option.isSome_iff_exists.mp hb
    obtain ⟨text', hload', -⟩ := h.good b y hy
    exact hba (hw.distinct b a (by simp [hload']) (by simp [hload]) hu)
  have hcall {part : Bool} (hm : .declarations a part ∈ s₁.calls) :
      text.named ∧ part = decide (text.heading = .unit) := by
    rw [hcalls] at hm
    rcases List.mem_append.mp hm with hm | hm
    · exact absurd hm (hold part)
    · split at hm
      · exact ⟨by assumption, by simpa using hm⟩
      · simp at hm
  refine h.touch { session := hsession, reports := ⟨new, hr, hnew⟩, calls := ⟨_, hcalls, ?_⟩,
                   byName := fun unit b => ?_, units := fun b hb hbs => ?_,
                   unitNames := fun unit hm => ?_, entry := ?_ } hload ?_ ?_
  · intro c hc
    split at hc
    · rw [List.mem_singleton.mp hc]
      rfl
    · simp at hc
  · rw [byName_finishParse, hname, h.byName unit b, hsession]
    by_cases hb : b = a
    · subst hb
      simp only [if_true, Option.isSome_some, true_and, and_iff_right_iff_imp]
      intro hd
      obtain ⟨text', hload', hn', -⟩ := declared_named hd
      rw [hload] at hload'
      cases hload'
      exact hnamed hn'
    · simp [hb]
  · have hne := hother b hb hbs
    rw [← hw.nodeName hload] at hne
    rw [← hunits]
    exact AList.lookup_insert_ne hne
  · rcases (AList.mem_insert _).mp hm with hm | hm
    · exact ⟨a, hself, by rw [hm, ← hw.nodeName hload]⟩
    · rw [units_setSession, hunits] at hm
      obtain ⟨b, hb, hu⟩ := h.unitNames unit hm
      exact ⟨b, hisSome b hb, hu⟩
  · rcases hentry with rfl | hentry
    · exact hself
    · exact hisSome _ hentry
  · refine { reached := hreach, phase := .inr ⟨rfl, .inl rfl⟩, flagged := fun hx => ?_,
             blamed := fun _ r hm hra => ?_, failed := fun hf => hbad ?_,
             first := fun _ unit hu => ?_, later := fun hc unit hu => ?_, bound := fun _ hnm => ?_,
             boundLater := fun hc hh => ?_, unbound := fun hc => absurd hc hphase,
             unboundLater := fun hc hm => ?_,
             unit := fun _ => ⟨text.parsed, hunit.trans ?_, fun hc => ?_⟩ }
    · exact hflag (by simpa [Bool.or_eq_true] using hx)
    · simp [hn r hm hra]
    · cases hh : text.heading <;> simp [Text.phase, hh] at hf ⊢
    · obtain ⟨x, hx, hsettled, -⟩ := huses unit hu
      refine hsettled.mono (fun he => ?_) hisSome ⟨new, hr⟩
      rw [hmark x hx he]
      rfl
    · cases hh : text.heading <;>
        simp [Text.phase, Text.laterUses, Project.imported, hh] at hc hu
    · rw [calls_finishParse, hcalls, if_pos hnm]
      simp
    · simp [Text.phase, hh] at hc
    · have hp := (hcall hm).2
      cases hh : text.heading <;> simp [Text.phase, hh] at hc hp
    · cases hh : text.heading <;> simp [Text.parsed, Text.phase, hh]
    · cases hh : text.heading <;>
        simp [Text.parsed, Text.phase, Text.firstUses, Text.laterUses, hh] at hc ⊢
  · rw [reports_finishParse, calls_finishParse, hcalls, hr]
    by_cases hnm : text.named
    · rw [if_pos hnm]
      refine (h.ordered.mono fun _ _ hp => hp.mono).append_singleton fun b part hc => ?_
      cases hc
      refine ⟨hold _, fun text' hload' => ?_⟩
      rw [hload] at hload'
      cases hload'
      refine ⟨hnm.imp id fun hh => ⟨hh, by rw [hh]; rfl⟩, fun unit hu b hb hp => ?_⟩
      rw [hnm.firstUses] at hu
      obtain ⟨x, -, -, hfirst⟩ := huses unit hu
      rcases hfirst b hb hp with ⟨y, hy, hclosed⟩ | ⟨r, hrm, hrc⟩
      · obtain ⟨textb, hloadb, hgb⟩ := h.good b y hy
        obtain ⟨textb', hloadb', hpb⟩ := hp
        rw [hloadb] at hloadb'
        cases hloadb'
        exact .inl ⟨textb, hloadb, hgb.bound hclosed (hw.text_named hb hloadb hpb)⟩
      · exact .inr ⟨r, List.mem_append_left _ hrm, hrc⟩
    · rw [if_neg hnm, List.append_nil]
      exact h.ordered.mono fun _ _ hp => hp.mono

def State.free (s : State α) (files : Finset α) : Nat :=
  (files.filter fun a => s.session a = none).card

theorem free_le {files : Finset α} (h : ∀ a, (s.session a).isSome → (s'.session a).isSome) :
    s'.free files ≤ s.free files := by
  refine Finset.card_le_card (Finset.monotone_filter_right files fun a _ ha => ?_)
  by_contra hs
  have hs' := h a (Option.isSome_iff_ne_none.mpr hs)
  simp [ha] at hs'

theorem free_lt {files : Finset α} (h : ∀ a, (s.session a).isSome → (s'.session a).isSome) {a : α}
    (ha : a ∈ files) (hn : s.session a = none) (hs : (s'.session a).isSome) :
    s'.free files < s.free files := by
  refine Nat.lt_of_lt_of_le (m := (insert a (files.filter fun b => s'.session b = none)).card)
    ?_ ?_
  · rw [Finset.card_insert_of_notMem fun hm => ?_]
    · exact Nat.lt_succ_self _
    · simp [(Finset.mem_filter.mp hm).2] at hs
  · refine Finset.card_le_card (Finset.insert_subset (by simp [ha, hn]) ?_)
    refine Finset.monotone_filter_right files fun b _ hb => ?_
    by_contra hs
    have hs' := h b (Option.isSome_iff_ne_none.mpr hs)
    simp [hb] at hs'

theorem Good.not_parsed {a : α} {x : Session} {text : Text} (h : Good p s a x text)
    (hload : p.load a = some text) (hclosed : x.phase ≠ .parsingInterface) :
    ¬ p.Parsed a ↔ x.phase = .failed := by
  have hp : p.Parsed a ↔ text.heading ≠ .other := by
    simp [Project.Parsed, hload]
  rw [hp, not_not]
  rcases h.phase with ⟨hx, -⟩ | ⟨-, hx | ⟨hh, hx⟩⟩
  · exact absurd hx hclosed
  · rw [hx]
    cases hh : text.heading <;> simp [Text.phase, hh]
  · simp [hx, hh]

theorem visited_again {a : α} {x : Session} {n : Nat} (h : Inv p s) (hx : s.session a = some x)
    (hclosed : x.phase ≠ .parsingInterface) (hn : n ≠ 0 ↔ x.hadError = true ∨ x.phase = .failed) :
    Visited p a s n s := by
  obtain ⟨text, hload, hg⟩ := h.good a x hx
  exact { inv := h, old := fun _ _ hq => hq, fresh := fun q y hq hq' => by simp [hq] at hq',
          reports := ⟨[], by simp, by simp⟩, calls := ⟨[], by simp, by simp⟩,
          found := fun _ => by simp [hx],
          blame := fun hn' => (hn.mp hn').elim hg.flagged fun hf =>
            ⟨a, .refl, .inl ((hg.not_parsed hload hclosed).mpr hf)⟩,
          unparsed := fun hp => hn.mpr (.inr ((hg.not_parsed hload hclosed).mp hp)) }

theorem Inv.no_report {a : α} (h : Inv p s) (ha : s.session a = none) {r : Report α}
    (hr : r ∈ s.reports) : r.path ≠ a := by
  intro hra
  have hs := (h.reported r hr).1
  simp [hra, ha] at hs

theorem Inv.no_call {a : α} (h : Inv p s) (ha : s.session a = none) {c : Call α}
    (hc : c ∈ s.calls) : c.path ≠ a := by
  intro hca
  have hs := h.called c hc
  simp [hca, ha] at hs

theorem visit_unnamed (hw : p.WellNamed) {a : α} {text : Text} (new : List (Report α))
    (h : Inv p s) (ha : s.session a = none) (hload : p.load a = some text) (hn : ¬ text.named)
    (hreach : p.Reaches p.entry a) (hentry : a = p.entry ∨ (s.session p.entry).isSome)
    (hnew : ∀ r ∈ new, r.path = a ∧ r.fault = .text) (hother : text.heading = .other → new ≠ []) :
    Visited p a s new.length (finishParse p a text new.length
      { s.setSession a ⟨"", false, .parsingInterface⟩ with reports := s.reports ++ new }) := by
  have hsession : ({ s.setSession a ⟨"", false, .parsingInterface⟩ with
      reports := s.reports ++ new } : State α).session a = some ⟨"", false, .parsingInterface⟩ := by
    change (s.setSession a _).session a = _
    simp
  have hjust (r : Report α) (hr : r ∈ new) : Justified p r := by
    simp [Justified, (hnew r hr).2]
  have hblame (hne : new.length ≠ 0) : p.Faulty (s.reports ++ new) a := by
    obtain ⟨r, hr⟩ := List.exists_mem_of_length_pos (Nat.pos_of_ne_zero hne)
    exact .inr (.inr (.inl ⟨r, List.mem_append_right _ hr, hnew r hr⟩))
  have hfirst : text.firstUses = [] := by
    cases hh : text.heading <;> simp [Text.firstUses, Text.named, hh] at hn ⊢
  refine { inv := ?_, old := fun q x hq => ?_, fresh := fun q x hq hq' => ?_,
           reports := ⟨new, rfl, fun r hr => ?_⟩, calls := ⟨[], by simp, by simp⟩,
           found := fun _ => ?_, blame := fun hne => ⟨a, .refl, hblame hne⟩,
           unparsed := fun hp => ?_ }
  · refine h.finishParse hw hload hreach hentry (fun hn' => absurd hn' hn)
      (fun part hm => h.no_call ha hm rfl) (fun b hb => ?_) rfl rfl
      ⟨new, rfl, fun r hr => ⟨(hnew r hr).1, hjust r hr⟩⟩ (by simp [if_neg hn])
      (by simp [hfirst, Project.imported]) (fun x hx => by simp [ha] at hx) (fun hor => ?_)
      (fun r hr hra => ?_) fun hh => ?_
    · change (s.setSession a _).session b = _
      simp [hb]
    · rw [hsession] at hor
      exact ⟨a, .refl, hblame (hor.resolve_left (by simp))⟩
    · rcases List.mem_append.mp hr with hr | hr
      · exact absurd hra (h.no_report ha hr)
      · exact Nat.ne_of_gt (List.length_pos_of_mem hr)
    · obtain ⟨r, hr⟩ := List.exists_mem_of_ne_nil new (hother hh)
      exact ⟨r, List.mem_append_right _ hr, (hnew r hr).1⟩
  · have hqa : q ≠ a := by
      rintro rfl
      simp [ha] at hq
    rw [session_finishParse, if_neg hqa]
    change (s.setSession a _).session q = _
    simp [hqa, hq]
  · rw [session_finishParse] at hq'
    by_cases hqa : q = a
    · rw [if_pos hqa] at hq'
      rw [← Option.some.inj hq']
      cases hh : text.heading <;> simp [Text.phase, hh]
    · rw [if_neg hqa] at hq'
      change (s.setSession a _).session q = _ at hq'
      simp [hqa, hq] at hq'
  · rw [(hnew r hr).1]
    exact ⟨ha, .refl⟩
  · simp [session_finishParse]
  · refine fun hlen => hother ?_ (List.length_eq_zero_iff.mp hlen)
    by_contra hh
    exact hp ⟨text, hload, hh⟩

@[simp] theorem session_declarations (a b : α) (part : Bool) :
    (declarations p a part s).session b = s.session b := rfl

def entered (s : State α) (a : α) (text : Text) : State α :=
  (s.setSession a ⟨"", false, .parsingInterface⟩).beginCompilationUnit a text.node.name

theorem session_entered (a b : α) (text : Text) : (entered s a text).session b =
    if b = a then some ⟨toLower text.node.name, false, .parsingInterface⟩ else s.session b := by
  rw [entered, session_beginCompilationUnit]
  by_cases hb : b = a <;> simp [hb]

@[simp] theorem reports_entered (a : α) (text : Text) : (entered s a text).reports = s.reports := by
  simp [entered]

@[simp] theorem calls_entered (a : α) (text : Text) :
    (entered s a text).calls = s.calls ++ [.beginUnit a (toLower text.node.name)] := by
  simp [entered]

theorem Handled.call {a : α} {unit : String} {c : Call α} (h : Handled p s a unit) :
    Handled p (s.call c) a unit := by
  obtain ⟨x, hx, hs, hfirst⟩ := h
  exact ⟨x, hx, hs.mono id (fun _ => id) ⟨[], by simp⟩, hfirst⟩

theorem visit_named (hw : p.WellNamed) {a : α} {text : Text} {s₁ : State α} {c : Call α}
    {part : Bool} {n : Nat} (h : Inv p s) (ha : s.session a = none) (hload : p.load a = some text)
    (hn : text.named) (hreach : p.Reaches p.entry a)
    (hentry : a = p.entry ∨ (s.session p.entry).isSome)
    (hi : Imported p a (p.imported text.firstUses) (entered s a text) s₁) (hc : c.path = a)
    (hd : ∀ b part, c ≠ .declarations b part) (hpart : part = decide (text.heading = .unit))
    (hlen : n = (declarations p a part (s₁.call c)).reports.length-s.reports.length) :
    Visited p a s n (finishParse p a text n (declarations p a part (s₁.call c))) := by
  obtain ⟨e, hself, -⟩ := hi.self _ (by rw [session_entered, if_pos rfl])
  obtain ⟨newt, hrt, hnewt⟩ := reports_declarations p (s₁.call c) a part
  obtain ⟨newr, hr, hnewr⟩ := hi.reports
  obtain ⟨newc, hcs, hnewc⟩ := hi.calls
  rw [reports_entered] at hr
  rw [calls_entered] at hcs
  rw [reports_call, hr, List.append_assoc] at hrt
  have hns {q : α} (hq : (entered s a text).session q = none) : s.session q = none := by
    rw [session_entered] at hq
    split at hq
    · contradiction
    · exact hq
  have hnew (r : Report α) (hm : r ∈ newr ++ newt) :
      s.session r.path = none ∧ p.Reaches a r.path ∧ Justified p r := by
    rcases List.mem_append.mp hm with hm | hm
    · have hj := (hi.inv.reported r (hr ▸ List.mem_append_right _ hm)).2
      rcases hnewr r hm with hra | ⟨hq, hreach'⟩
      · exact ⟨hra ▸ ha, hra ▸ .refl, hj⟩
      · exact ⟨hns hq, hreach', hj⟩
    · exact ⟨(hnewt r hm).1 ▸ ha, (hnewt r hm).1 ▸ .refl, (hnewt r hm).2⟩
  have hlen' : n = (newr ++ newt).length := by
    rw [hlen, hrt, List.length_append]
    omega
  have hblame (hne : n ≠ 0) : ∃ b, p.Reaches a b ∧ p.Faulty (s.reports ++ (newr ++ newt)) b := by
    obtain ⟨r, hm⟩ := List.exists_mem_of_length_pos (Nat.pos_of_ne_zero (hlen' ▸ hne))
    exact ⟨r.path, (hnew r hm).2.1, (hnew r hm).2.2.faulty (List.mem_append_right _ hm)⟩
  have hinv : Inv p (s₁.call c) := hi.inv.call (by simp [hc, hself]) hd
  have hsession (q : α) (hq : q ≠ a) : (finishParse p a text n
      (declarations p a part (s₁.call c))).session q = s₁.session q := by
    rw [session_finishParse, if_neg hq]
    rfl
  refine { inv := ?_, old := fun q x hq => ?_, fresh := fun q x hq hq' => ?_,
           reports := ⟨newr ++ newt, hrt, fun r hm => ⟨(hnew r hm).1, (hnew r hm).2.1⟩⟩,
           calls := ⟨[.beginUnit a (toLower text.node.name)] ++ newc ++ [c, .declarations a part],
             ?_, fun d hm => ?_⟩,
           found := fun _ => ?_, blame := fun hne => ?_,
           unparsed := fun hp => absurd (hn.parsed hload) hp }
  · obtain ⟨text', hload', hg⟩ := hinv.good a _ hself
    rw [hload] at hload'
    cases hload'
    refine hinv.finishParse hw hload hreach (.inr (hinv.entry_isSome hself)) (fun _ => ?_)
      (hg.unbound rfl) (fun b _ => rfl) rfl rfl ⟨newt, ?_, hnewt⟩ ?_
      (fun unit hu => ?_) (fun x hx he => ?_) (fun hor => ?_) (fun r hm hra hz => ?_)
      fun hh => ?_
    · simp [hself]
    · rw [hrt, reports_call, hr, List.append_assoc]
    · rw [if_pos hn, calls_declarations, hpart]
    · exact (hi.handled unit hu).call
    · rw [session_call, hself] at hx
      cases hx
      simpa [hself] using he
    · rw [hrt]
      rcases hor with he | hne
      · obtain ⟨b, hab, hb⟩ := hg.flagged (by simpa [hself] using he)
        rw [reports_call, hr] at hb
        refine ⟨b, hab, ?_⟩
        rw [← List.append_assoc]
        exact hb.mono
      · exact hblame hne
    · rw [hrt] at hm
      rcases List.mem_append.mp hm with hm | hm
      · exact h.no_report ha hm hra
      · rw [hlen'] at hz
        exact absurd (List.length_pos_of_mem hm) (by omega)
    · rcases hn with hn | hn <;> simp [hn] at hh
  · have hqa : q ≠ a := by
      rintro rfl
      simp [ha] at hq
    rw [hsession q hqa]
    exact hi.others q x hqa (by rw [session_entered, if_neg hqa, hq])
  · by_cases hqa : q = a
    · rw [session_finishParse, if_pos hqa] at hq'
      rw [← Option.some.inj hq']
      cases hh : text.heading <;> simp [Text.phase, hh]
    · rw [hsession q hqa] at hq'
      exact hi.fresh q x (by rw [session_entered, if_neg hqa, hq]) hq'
  · rw [calls_finishParse, calls_declarations, calls_call, hcs]
    simp
  · simp only [List.mem_append, List.mem_cons, List.not_mem_nil, or_false] at hm
    rcases hm with (rfl | hm) | rfl | rfl
    · exact ha
    · exact hns (hnewc d hm)
    · exact hc ▸ ha
    · exact ha
  · simp [session_finishParse]
  · rw [reports_finishParse, hrt]
    exact hblame hne

theorem importEach_entered (hw : p.WellNamed) {f : α → State α → Option (Nat × State α)} {a : α}
    {text : Text} (h : Inv p s) (ha : s.session a = none) (hload : p.load a = some text)
    (hn : text.named) (hreach : p.Reaches p.entry a)
    (hentry : a = p.entry ∨ (s.session p.entry).isSome)
    (hstack : ∀ q y, s.session q = some y → y.phase = .parsingInterface →
      ReflTransGen p.NextFirst q a)
    (hf : ∀ s₁, Inv p s₁ → (∀ q, (s.session q).isSome → (s₁.session q).isSome) →
      (s₁.session a).isSome → Visits p f s₁) :
    ∃ s', importEach p f a text.firstUses (entered s a text) = some s' ∧
      Imported p a (p.imported text.firstUses) (entered s a text) s' := by
  have hself : (entered s a text).session a =
      some ⟨toLower text.node.name, false, .parsingInterface⟩ := by rw [session_entered, if_pos rfl]
  have hmono (q : α) (hq : (s.session q).isSome) : ((entered s a text).session q).isSome := by
    rw [session_entered]
    split
    · rfl
    · exact hq
  have hsub {unit : String} (hu : unit ∈ p.imported text.firstUses) :
      unit ∈ p.imported (text.firstUses ++ text.laterUses) := by
    simp only [Project.imported, List.map_append, List.filter_append, List.mem_append] at hu ⊢
    exact .inl hu
  refine importEach_spec hw (h.enter hw ha hload hn hreach hentry) hself (by simp)
    (fun unit hu => { next := fun b hb => ⟨text, hload, unit, hsub hu, hb⟩,
                      unresolved := fun hb => ⟨text, hload, unit, hsub hu, hb⟩,
                      stack := fun b hb q y hq hphase => ⟨⟨text, hload, unit, hu, hb⟩, ?_⟩ })
    fun s₁ h₁ hs₁ => hf s₁ h₁ (fun q hq => hs₁ q (hmono q hq)) (hs₁ a (by simp [hself]))
  rw [session_entered] at hq
  split at hq
  case isTrue hqa => rw [hqa]
  case isFalse => exact hstack q y hq hphase

theorem importUnits_eq {f : α → State α → Option (Nat × State α)} {a : α} {imports : List String}
    (h : importEach p f a imports s = some s') (part : Bool) : importUnits p f a imports part s =
      some (s'.call (.imports a (((s'.session a).map (·.name)).getD "") imports part)) := by
  simp only [importUnits, h, Option.map_some]

theorem parseRecursive_spec (hw : p.WellNamed) {files : Finset α} (hfiles : p.Within files)
    (n : Nat) {s : State α} (h : Inv p s) (hfuel : s.free files < n) :
    Visits p (parseRecursive p n) s := by
  induction n generalizing s with
  | zero => omega
  | succ n ih =>
    intro a hreach hclosed hstack hentry
    simp only [parseRecursive]
    cases ha : s.session a with
    | some x =>
      have hx := hclosed x ha
      simp only [if_neg hx]
      by_cases hbad : x.hadError = true ∨ x.phase = .failed
      · exact ⟨1, s, if_pos hbad, visited_again h ha hx (by simp [hbad])⟩
      · exact ⟨0, s, if_neg hbad, visited_again h ha hx (by simp [hbad])⟩
    | none =>
      cases hload : p.load a with
      | none =>
        have hp : ¬ p.Parsed a := by simp [Project.Parsed, hload]
        exact ⟨1, s, rfl,
          { inv := h, old := fun _ _ hq => hq, fresh := fun q y hq hq' => by simp [hq] at hq',
            reports := ⟨[], by simp, by simp⟩, calls := ⟨[], by simp, by simp⟩,
            found := by simp [hload], blame := fun _ => ⟨a, .refl, .inl hp⟩,
            unparsed := fun _ => one_ne_zero }⟩
      | some text =>
        have hvisits (s₁ : State α) (h₁ : Inv p s₁)
            (hs₁ : ∀ q, (s.session q).isSome → (s₁.session q).isSome)
            (ha₁ : (s₁.session a).isSome) : Visits p (parseRecursive p n) s₁ :=
          ih h₁ (by have := free_lt hs₁ (hfiles.mem hreach) ha ha₁; omega)
        cases hh : text.heading with
        | unit =>
          have hn : text.named := .inl hh
          have hfirst : text.firstUses = text.node.interfaceUses := by simp [Text.firstUses, hh]
          obtain ⟨s₁, hrun, hi⟩ :=
            importEach_entered hw h ha hload hn hreach hentry hstack hvisits
          rw [hfirst] at hrun
          refine ⟨_, _, ?_, visit_named hw (c := .imports a (((s₁.session a).map (·.name)).getD "")
            text.node.interfaceUses true) h ha hload hn hreach hentry hi rfl (by simp)
            (decide_eq_true hh).symm rfl⟩
          simp only [parseText, hh]
          exact congrArg (Option.map _) (congrArg (Option.map _) (importUnits_eq hrun _))
        | program =>
          have hn : text.named := .inr hh
          have hfirst : text.firstUses = text.node.implUses := by simp [Text.firstUses, hh]
          obtain ⟨s₁, hrun, hi⟩ :=
            importEach_entered hw h ha hload hn hreach hentry hstack hvisits
          rw [hfirst] at hrun
          refine ⟨_, _, ?_, visit_named hw (c := .imports a (((s₁.session a).map (·.name)).getD "")
            text.node.implUses false) h ha hload hn hreach hentry hi rfl (by simp) (by rw [hh]) rfl⟩
          simp only [parseText, hh]
          exact congrArg (Option.map _) (congrArg (Option.map _) (importUnits_eq hrun _))
        | body =>
          have hn : ¬ text.named := by simp [Text.named, hh]
          refine ⟨_, _, ?_, visit_unnamed hw ((p.textErrors a false s.calls).map
            fun message => ⟨a, .text, message⟩) h ha hload hn hreach hentry ?_ (by simp [hh])⟩
          · simp [parseText, hh, textErrors]
          · intro r hr
            obtain ⟨message, -, rfl⟩ := List.mem_map.mp hr
            exact ⟨rfl, rfl⟩
        | other =>
          have hn : ¬ text.named := by simp [Text.named, hh]
          refine ⟨_, _, ?_, visit_unnamed hw [⟨a, .text,
            "expected 'program' or 'unit' at top of compilation unit"⟩] h ha hload hn hreach hentry
            (by simp) (by simp)⟩
          simp [parseText, hh, State.report]

section
variable {a : α} {x : Session} (text : Text) (n : Nat)

theorem session_finishImplementation (hx : s.session a = some x) (b : α) :
    (finishImplementation a text n s).session b =
      if b = a then some { x with hadError := x.hadError || decide (n ≠ 0), phase := .complete }
      else s.session b := by
  simp only [finishImplementation, hx]
  split
  · exact session_setSession a _ b
  · exact session_setSession a _ b

@[simp] theorem reports_finishImplementation :
    (finishImplementation a text n s).reports = s.reports := by
  unfold finishImplementation
  split
  · rfl
  · dsimp only
    split <;> rfl

@[simp] theorem calls_finishImplementation : (finishImplementation a text n s).calls = s.calls := by
  unfold finishImplementation
  split
  · rfl
  · dsimp only
    split <;> rfl

@[simp] theorem byName_finishImplementation :
    (finishImplementation a text n s).sessionsByName = s.sessionsByName := by
  unfold finishImplementation
  split
  · rfl
  · dsimp only
    split <;> rfl

theorem units_finishImplementation (hx : s.session a = some x) (hu : x.name ∈ s.units) :
    (finishImplementation a text n s).units =
      s.units.insert x.name ⟨some text.node, !(x.hadError || decide (n ≠ 0))⟩ := by
  simp only [finishImplementation, hx]
  exact congrArg State.units (if_pos hu)

end

theorem Good.interfaceReady {a : α} {x : Session} {text : Text} (h : Good p s a x text)
    (hx : x.phase = .interfaceReady) : text.heading = .unit ∧ x.name = p.unitName a := by
  rcases h.phase with ⟨hp, -⟩ | ⟨hname, hp | ⟨hh, -⟩⟩
  · simp [hx] at hp
  · refine ⟨?_, hname⟩
    rw [hx] at hp
    cases hh : text.heading <;> simp [Text.phase, hh] at hp ⊢
  · exact ⟨hh, hname⟩

theorem Inv.finishImplementation (hw : p.WellNamed) {a : α} {x : Session} {text : Text} {n : Nat}
    (h : Inv p s) (hx : s.session a = some x) (hphase : x.phase = .interfaceReady)
    (hload : p.load a = some text) (huses : ∀ unit ∈ p.imported text.laterUses, Handled p s a unit)
    (hflag : n ≠ 0 → ∃ b, p.Reaches a b ∧ p.Faulty (declarations p a false s).reports b)
    (hn : ∀ r ∈ (declarations p a false s).reports, r.path = a → x.hadError = true ∨ n ≠ 0) :
    Inv p (Discovery.finishImplementation a text n (declarations p a false s)) := by
  obtain ⟨text', hload', hg⟩ := h.good a x hx
  rw [hload] at hload'
  cases hload'
  obtain ⟨hh, hname⟩ := hg.interfaceReady hphase
  obtain ⟨new, hr, hnew⟩ := reports_declarations p s a false
  have hx₁ : (declarations p a false s).session a = some x := hx
  have hsession := session_finishImplementation text n hx₁
  have hclosed : x.phase ≠ .parsingInterface := by simp [hphase]
  obtain ⟨node, hnode, -⟩ := hg.unit hclosed
  have hmem : x.name ∈ (declarations p a false s).units := by
    rw [hname, ← AList.lookup_isSome]
    change (s.units.lookup (p.unitName a)).isSome = true
    simp [hnode]
  have hunits := units_finishImplementation text n hx₁ hmem
  have hisSome (b : α) (hb : (s.session b).isSome) : ((Discovery.finishImplementation a text n
      (declarations p a false s)).session b).isSome := by
    rw [hsession]
    split
    · rfl
    · exact hb
  have hother (b : α) (hba : b ≠ a) (hb : (s.session b).isSome) : p.unitName b ≠ x.name := by
    intro hu
    obtain ⟨y, hy⟩ := Option.isSome_iff_exists.mp hb
    obtain ⟨text', hload', -⟩ := h.good b y hy
    exact hba (hw.distinct b a (by simp [hload']) (by simp [hload]) (hu.trans hname))
  refine h.touch { session := hsession, reports := ⟨new, by simpa using hr, hnew⟩,
                   calls := ⟨[.declarations a false], by simp, by simp [Call.path]⟩,
                   byName := fun unit b => ?_, units := fun b hb hbs => ?_,
                   unitNames := fun unit hm => ?_, entry := hisSome _ (h.entry_isSome hx) }
    hload ?_ ?_
  · rw [byName_finishImplementation, hsession]
    refine (h.byName unit b).trans ?_
    by_cases hb : b = a
    · subst hb
      simp [hx]
    · simp [hb]
  · rw [hunits, AList.lookup_insert_ne (hother b hb hbs)]
    rfl
  · rw [hunits, AList.mem_insert] at hm
    rcases hm with rfl | hm
    · exact ⟨a, hisSome a (by simp [hx]), hname.symm⟩
    · obtain ⟨b, hb, hu⟩ := h.unitNames unit hm
      exact ⟨b, hisSome b hb, hu⟩
  · have hkeep {unit : String} (hs : Settled p s a x unit) :
        Settled p (Discovery.finishImplementation a text n (declarations p a false s)) a
          { x with hadError := x.hadError || decide (n ≠ 0), phase := .complete } unit :=
      hs.mono (fun he => by simp [he]) hisSome ⟨new, by simpa using hr⟩
    refine { reached := hg.reached, phase := .inr ⟨hname, .inr ⟨hh, rfl⟩⟩,
             flagged := fun he => ?_, blamed := fun _ r hm hra => ?_, failed := by simp,
             first := fun _ unit hu => hkeep (hg.first hclosed unit hu),
             later := fun _ unit hu => ?_, bound := fun _ hnm => ?_,
             boundLater := fun _ _ => by simp, unbound := by simp, unboundLater := by simp,
             unit := fun _ => ⟨some text.node, ?_, fun _ => ⟨text.node, rfl, ?_⟩⟩ }
    · rw [reports_finishImplementation]
      rcases Bool.or_eq_true _ _ ▸ he with he | he
      · obtain ⟨b, hab, hb⟩ := hg.flagged he
        exact ⟨b, hab, hr ▸ hb.mono⟩
      · exact hflag (by simpa using he)
    · rw [reports_finishImplementation] at hm
      simpa [Bool.or_eq_true] using hn r hm hra
    · obtain ⟨y, hy, hs, -⟩ := huses unit hu
      rw [hx] at hy
      cases hy
      exact hkeep hs
    · simp only [calls_finishImplementation, calls_declarations]
      exact List.mem_append_left _ (hg.bound hclosed hnm)
    · rw [hunits, ← hname, AList.lookup_insert]
      simp
    · simp [Text.firstUses, Text.laterUses, hh]
  · simp only [reports_finishImplementation, calls_finishImplementation, calls_declarations, hr]
    refine (h.ordered.mono fun _ _ hp => hp.mono).append_singleton fun b part hc => ?_
    cases hc
    refine ⟨hg.unboundLater hphase, fun text' hload' => ?_⟩
    rw [hload] at hload'
    cases hload'
    refine ⟨.inl hh, fun unit hu b hb hp => ?_⟩
    have hlater : text.partUses false = text.laterUses := by
      simp [Text.partUses, Text.laterUses, hh]
    rw [hlater] at hu
    obtain ⟨y, -, -, hfirst⟩ := huses unit hu
    rcases hfirst b hb hp with ⟨y, hy, hyc⟩ | ⟨r, hrm, hrc⟩
    · obtain ⟨textb, hloadb, hgb⟩ := h.good b y hy
      obtain ⟨textb', hloadb', hpb⟩ := hp
      rw [hloadb] at hloadb'
      cases hloadb'
      exact .inl ⟨textb, hloadb, hgb.bound hyc (hw.text_named hb hloadb hpb)⟩
    · exact .inr ⟨r, List.mem_append_left _ hrm, hrc⟩

/-- No file is in the middle of its first parse. -/
def State.Closed (s : State α) : Prop :=
  ∀ a x, s.session a = some x → x.phase ≠ .parsingInterface

theorem parseUnitImplementation_spec (hw : p.WellNamed) {files : Finset α}
    (hfiles : p.Within files) {n : Nat} {a : α} {x : Session} (h : Inv p s) (hclosed : s.Closed)
    (hfuel : s.free files < n) (hx : s.session a = some x) (hphase : x.phase = .interfaceReady) :
    ∃ s', parseUnitImplementation p n a s = some s' ∧ Inv p s' ∧ s'.Closed ∧
      (∀ q y, q ≠ a → s.session q = some y → s'.session q = some y) ∧
      (∃ y, s'.session a = some y ∧ y.phase = .complete) ∧
      s.reports.length ≤ s'.reports.length := by
  obtain ⟨text, hload, hg⟩ := h.good a x hx
  obtain ⟨hh, -⟩ := hg.interfaceReady hphase
  have hlater : text.laterUses = text.node.implUses := by simp [Text.laterUses, hh]
  have hsub {unit : String} (hu : unit ∈ p.imported text.laterUses) :
      unit ∈ p.imported (text.firstUses ++ text.laterUses) := by
    simp only [Project.imported, List.map_append, List.filter_append, List.mem_append] at hu ⊢
    exact .inr hu
  obtain ⟨s₁, hrun, hi⟩ : ∃ s', importEach p (parseRecursive p n) a text.laterUses s = some s' ∧
      Imported p a (p.imported text.laterUses) s s' := importEach_spec hw h hx (by simp [hphase])
    (fun unit hu => { next := fun b hb => ⟨text, hload, unit, hsub hu, hb⟩,
                      unresolved := fun hb => ⟨text, hload, unit, hsub hu, hb⟩,
                      stack := fun b hb q y hq hy => absurd hy (hclosed q y hq) })
    fun s₂ h₂ hs₂ => parseRecursive_spec hw hfiles n h₂ (Nat.lt_of_le_of_lt (free_le hs₂) hfuel)
  rw [hlater] at hrun
  obtain ⟨e, hself, hmark⟩ := hi.self x hx
  obtain ⟨newr, hr, hnewr⟩ := hi.reports
  have hclosed₁ : s₁.Closed := by
    intro q y hq
    cases hold : s.session q with
    | none => exact hi.fresh q y hold hq
    | some z =>
      by_cases hqa : q = a
      · rw [hqa, hself] at hq
        cases hq
        simp [hphase]
      · rw [hi.others q z hqa hold] at hq
        cases hq
        exact hclosed q y hold
  have hunits := importUnits_eq hrun false
  generalize hc : Call.imports a (((s₁.session a).map (·.name)).getD "") text.node.implUses false = c
    at hunits
  have hcalled : Inv p (s₁.call c) := hi.inv.call (by simp [← hc, Call.path, hself]) (by simp [← hc])
  obtain ⟨newt, hrt, hnewt⟩ := reports_declarations p (s₁.call c) a false
  rw [reports_call, hr, List.append_assoc] at hrt
  have hlen : (declarations p a false (s₁.call c)).reports.length-s.reports.length =
      (newr ++ newt).length := by
    rw [hrt, List.length_append]
    omega
  have hsession := session_finishImplementation text
    ((declarations p a false (s₁.call c)).reports.length-s.reports.length)
    (s := declarations p a false (s₁.call c)) hself
  refine ⟨finishImplementation a text
      ((declarations p a false (s₁.call c)).reports.length-s.reports.length)
      (declarations p a false (s₁.call c)), ?_,
    hcalled.finishImplementation hw hself hphase hload (fun unit hu => (hi.handled unit hu).call)
      (fun hne => ?_) (fun r hm hra => ?_), fun q y hq => ?_, fun q y hqa hq => ?_, ?_, ?_⟩
  · simp only [parseUnitImplementation, hload]
    exact congrArg (Option.map _) hunits
  · rw [hlen] at hne
    obtain ⟨r, hm⟩ := List.exists_mem_of_length_pos (Nat.pos_of_ne_zero hne)
    rw [hrt]
    rcases List.mem_append.mp hm with hm' | hm'
    · have hj := (hi.inv.reported r (hr ▸ List.mem_append_right _ hm')).2
      have hreach : p.Reaches a r.path := by
        rcases hnewr r hm' with hra | ⟨-, hra⟩
        · rw [hra]
          exact .refl
        · exact hra
      exact ⟨r.path, hreach, hj.faulty (List.mem_append_right _ hm)⟩
    · have hf : p.Faulty (s.reports ++ (newr ++ newt)) r.path :=
        (hnewt r hm').2.faulty (List.mem_append_right _ hm)
      rw [(hnewt r hm').1] at hf
      exact ⟨a, .refl, hf⟩
  · rw [hrt] at hm
    rcases List.mem_append.mp hm with hm | hm
    · exact .inl (hmark (hg.blamed (by simp [hphase]) r hm hra))
    · right
      rw [hlen]
      exact Nat.ne_of_gt (List.length_pos_of_mem hm)
  · rw [hsession] at hq
    split at hq
    · rw [← Option.some.inj hq]
      simp
    · exact hclosed₁ q y hq
  · rw [hsession, if_neg hqa]
    exact hi.others q y hqa hq
  · exact ⟨_, by rw [hsession, if_pos rfl], rfl⟩
  · rw [reports_finishImplementation, hrt]
    simp

def State.ended (s : State α) (a : α) : Bool :=
  match s.session a with
  | none => false
  | some x => decide (x.phase = .complete ∨ x.phase = .failed)

def State.unfinished (s : State α) (files : Finset α) : Nat :=
  (files.filter fun a => s.ended a = false).card

theorem pending_some {σ : HashOrder Nat} {i : Nat} {a : α} (h : pending σ i s = some a) :
    ∃ x, s.session a = some x ∧ x.phase = .interfaceReady := by
  have hp := List.find?_some h
  rw [decide_eq_true_eq, Option.map_eq_some_iff] at hp
  exact hp

theorem pending_none {σ : HashOrder Nat} {i : Nat} (h : pending σ i s = none) {a : α}
    {x : Session} (hx : s.session a = some x) : x.phase ≠ .interfaceReady := by
  have hmem : a ∈ s.sessionsByPath.keys :=
    AList.mem_keys.mp (AList.lookup_isSome.mp (by rw [show s.sessionsByPath.lookup a = some x from hx]; simp))
  have hp := List.find?_eq_none.mp h a ((σ.perm i _).mem_iff.mpr hmem)
  simpa [hx] using hp

theorem parsePendingImplementations_spec (hw : p.WellNamed) {files : Finset α}
    (hfiles : p.Within files) (σ : HashOrder Nat) {fuel n : Nat} (h : Inv p s) (hclosed : s.Closed)
    (hfuel : s.free files < fuel) (hn : s.unfinished files < n) :
    ∃ s', parsePendingImplementations p σ fuel n s = some s' ∧ Inv p s' ∧
      (∀ q, (s.session q).isSome → (s'.session q).isSome) ∧
      (∀ q x, s'.session q = some x → x.phase = .complete ∨ x.phase = .failed) ∧
      s.reports.length ≤ s'.reports.length := by
  induction n generalizing s with
  | zero => omega
  | succ n ih =>
    simp only [parsePendingImplementations]
    cases hp : pending σ n s with
    | none =>
      refine ⟨s, rfl, h, fun _ => id, fun q x hx => ?_, Nat.le_refl _⟩
      have hready := pending_none hp hx
      have hparsing := hclosed q x hx
      cases hphase : x.phase <;> simp_all
    | some a =>
      obtain ⟨x, hx, hphase⟩ := pending_some hp
      obtain ⟨s₁, hrun, h₁, hclosed₁, hothers, ⟨y, hy, hdone⟩, hlen⟩ :=
        parseUnitImplementation_spec hw hfiles h hclosed hfuel hx hphase
      obtain ⟨text, hload, hg⟩ := h.good a x hx
      have hmono (q : α) (hq : (s.session q).isSome) : (s₁.session q).isSome := by
        obtain ⟨z, hz⟩ := Option.isSome_iff_exists.mp hq
        by_cases hqa : q = a
        · simp [hqa, hy]
        · simp [hothers q z hqa hz]
      have hless : s₁.unfinished files < s.unfinished files := by
        refine Finset.card_lt_card ((Finset.ssubset_iff_of_subset fun q hq => ?_).mpr ⟨a, ?_, ?_⟩)
        · rw [Finset.mem_filter] at hq ⊢
          refine ⟨hq.1, ?_⟩
          by_cases hqa : q = a
          · simp [State.ended, hqa, hx, hphase]
          · cases hz : s.session q with
            | none => simp [State.ended, hz]
            | some z =>
              simpa [State.ended, hz, hothers q z hqa hz] using hq.2
        · simp [State.ended, hx, hphase, hfiles.mem hg.reached]
        · simp [State.ended, hy, hdone]
      obtain ⟨s', hrun', h', hmono', hend, hlen'⟩ := ih h₁ hclosed₁
        (Nat.lt_of_le_of_lt (free_le hmono) hfuel) (by omega)
      refine ⟨s', ?_, h', fun q hq => hmono' q (hmono q hq), hend, Nat.le_trans hlen hlen'⟩
      simp only [hrun, Option.bind_some]
      exact hrun'

theorem empty_inv : Inv p (State.empty : State α) := by
  have hsession (a : α) : (State.empty : State α).session a = none := AList.lookup_empty a
  refine { good := ?_, entry := ?_, byName := ?_, unitNames := ?_, reported := ?_, called := ?_,
           ordered := .nil }
  · intro a x hx
    simp [hsession] at hx
  · intro a ha
    simp [hsession] at ha
  · intro unit a
    rw [hsession]
    simp [State.empty]
  · intro unit hu
    exact absurd hu (AList.notMem_empty unit)
  · simp [State.empty]
  · simp [State.empty]

/-- The errors a first visit counts are those it reports. -/
theorem parseRecursive_count {n k : Nat} {a : α} (ha : s.session a = none)
    (h : parseRecursive p n a s = some (k, s')) :
    k = if (p.load a).isSome then s'.reports.length-s.reports.length else 1 := by
  cases n with
  | zero => simp [parseRecursive] at h
  | succ n =>
    simp only [parseRecursive, ha] at h
    cases hload : p.load a with
    | none =>
      simp only [hload, Option.some.injEq, Prod.mk.injEq] at h
      simp [h.1]
    | some text =>
      simp only [hload, Option.map_eq_some_iff, Prod.mk.injEq] at h
      obtain ⟨s₁, -, hk, hs⟩ := h
      simp [← hs, hk]

theorem discoverFromEntry_runs (hw : p.WellNamed) {files : Finset α} (hfiles : p.Within files)
    (σ : HashOrder Nat) {fuel : Nat} (hfuel : files.card < fuel) :
    ∃ errors s g, discoverFromEntry p σ fuel = some (errors, s, g) ∧ Inv p s ∧
      (∀ a x, s.session a = some x → x.phase = .complete ∨ x.phase = .failed) ∧
      ((p.load p.entry).isSome → (s.session p.entry).isSome) ∧
      (errors = 0 ↔ (p.load p.entry).isSome ∧ s.reports = []) ∧
      s.graph.propagateFailures σ = some g := by
  have hfree : (State.empty : State α).free files ≤ files.card := Finset.card_filter_le _ _
  have hempty (a : α) : (State.empty : State α).session a = none := AList.lookup_empty a
  obtain ⟨k, s₁, hrun₁, hv⟩ := parseRecursive_spec hw hfiles fuel empty_inv (by omega) p.entry
    .refl (fun y hy => by simp [hempty] at hy) (fun q y hq => by simp [hempty] at hq) (.inl rfl)
  have hk := parseRecursive_count (hempty _) hrun₁
  have hunfinished : s₁.unfinished files ≤ files.card := Finset.card_filter_le _ _
  have hfree₁ : s₁.free files ≤ files.card := Finset.card_filter_le _ _
  obtain ⟨s₂, hrun₂, hinv, hmono, hend, hlen⟩ := parsePendingImplementations_spec hw hfiles σ
    hv.inv (fun q x hx => hv.fresh q x (hempty q) hx) (show s₁.free files < fuel by omega)
    (show s₁.unfinished files < fuel by omega)
  obtain ⟨failed, hg, -⟩ := propagateFailures_spec s₂.graph.nodup σ
  refine ⟨k+(s₂.reports.length-s₁.reports.length), s₂, _, ?_, hinv, hend,
    fun hl => hmono _ (hv.found hl), ?_, hg⟩
  · simp only [discoverFromEntry, hrun₁, hrun₂, hg, Option.bind_eq_bind, Option.bind_some]
    rfl
  · rw [hk]
    simp only [State.empty, List.length_nil, Nat.sub_zero, Nat.add_eq_zero_iff]
    rw [← List.length_eq_zero_iff]
    split
    case isTrue hl =>
      simp only [hl, true_and]
      omega
    case isFalse hl => simp [hl]

end
end Tp2cc.Discovery
