import Mathlib.Data.Fintype.Basic
import Mathlib.Tactic.FinCases
import Tp2cc.Units.DiscoveryLaw

set_option autoImplicit false

namespace Tp2cc.Discovery
open Relation

section
variable {α : Type} {p : Project α}

theorem Project.NextFirst.named {a b : α} {text : Text} (h : p.NextFirst a b)
    (hload : p.load a = some text) : text.named := by
  obtain ⟨text', hload', unit, hu, -⟩ := h
  rw [hload] at hload'
  cases hload'
  cases hh : text.heading <;> simp [Text.firstUses, Text.named, Project.imported, hh] at hu ⊢

theorem reaches_of_first {a b : α} (h : ReflTransGen p.NextFirst a b) : p.Reaches a b := by
  have hle : ReflTransGen p.NextFirst ≤ ReflTransGen p.Next :=
    ReflTransGen.mono fun _ _ => Project.NextFirst.next
  exact hle a b h

theorem Project.Next.parsed {a b : α} (h : p.Next a b) : p.Parsed a := by
  obtain ⟨text, hload, unit, hu, -⟩ := h
  refine ⟨text, hload, fun hh => ?_⟩
  simp [Text.firstUses, Text.laterUses, Project.imported, hh] at hu

theorem Project.WellNamed.declared (hw : p.WellNamed) {a : α} {unit : String}
    (hu : p.unitNamed unit = some a) (hp : p.Parsed a) : p.declared a = some unit := by
  obtain ⟨text, hload, hother⟩ := hp
  have hn := hw.text_named hu hload hother
  unfold Project.unitNamed at hu
  split at hu
  case isTrue he => rwa [← Option.some.inj hu]
  case isFalse =>
    rw [declared_eq hload hn, ((hw.found unit a text hu hload).resolve_left hother).2]

theorem TransGen.next_on_cycle {R : α → α → Prop} {a : α} (h : TransGen R a a) :
    ∃ b, R a b ∧ TransGen R b b := by
  obtain ⟨b, hab, hba⟩ := TransGen.head'_iff.mp h
  exact ⟨b, hab, TransGen.tail' hba hab⟩

theorem mem_graph {s : State α} {name : String} {unit : ParsedUnit} :
    (name, unit) ∈ s.graph.units ↔ s.units.lookup name = some unit := by
  rw [← Option.mem_def, AList.mem_lookup_iff]
  simp only [State.graph, List.mem_map, Prod.mk.injEq]
  constructor
  · rintro ⟨e, hm, rfl, rfl⟩
    exact hm
  · exact fun hm => ⟨_, hm, rfl, rfl⟩

end

section
variable {α : Type} [DecidableEq α] {p : Project α} {s : State α}

structure Finished (p : Project α) (s : State α) : Prop where
  inv : Inv p s
  ended : ∀ a x, s.session a = some x → x.phase = .complete ∨ x.phase = .failed
  entry : (p.load p.entry).isSome → (s.session p.entry).isSome

theorem Finished.complete (h : Finished p s) {a : α} (ha : (s.session a).isSome)
    (hp : p.Parsed a) : ∃ x text, s.session a = some x ∧ p.load a = some text ∧
      x.phase = .complete ∧ Good p s a x text := by
  obtain ⟨x, hx⟩ := Option.isSome_iff_exists.mp ha
  obtain ⟨text, hload, hg⟩ := h.inv.good a x hx
  refine ⟨x, text, hx, hload, ?_, hg⟩
  refine (h.ended a x hx).resolve_right fun hf => ?_
  exact (hg.not_parsed hload (by simp [hf])).mpr hf hp

theorem Good.settled {a : α} {x : Session} {text : Text} {unit : String} (h : Good p s a x text)
    (hx : x.phase = .complete) (hu : unit ∈ p.imported (text.firstUses ++ text.laterUses)) :
    Settled p s a x unit := by
  simp only [Project.imported, List.map_append, List.filter_append, List.mem_append] at hu
  rcases hu with hu | hu
  · exact h.first (by simp [hx]) unit hu
  · exact h.later hx unit hu

theorem Finished.session_iff (h : Finished p s) (a : α) :
    (s.session a).isSome ↔ p.Reaches p.entry a ∧ (p.load a).isSome := by
  constructor
  · intro ha
    obtain ⟨x, hx⟩ := Option.isSome_iff_exists.mp ha
    obtain ⟨text, hload, hg⟩ := h.inv.good a x hx
    exact ⟨hg.reached, by simp [hload]⟩
  · rintro ⟨hr, hl⟩
    induction hr with
    | refl => exact h.entry hl
    | @tail b c _ hbc ih =>
      have hb := hbc.parsed
      obtain ⟨text, hload, unit, hu, hc⟩ := hbc
      obtain ⟨x, text', hx, hload', hcomplete, hg⟩ := h.complete (ih (by simp [hload])) hb
      rw [hload] at hload'
      cases hload'
      exact (hg.settled hcomplete hu).found c hc hl

theorem Finished.bound_iff (h : Finished p s) (a : α) (part : Bool) :
    .declarations a part ∈ s.calls ↔
      p.Reaches p.entry a ∧ ∃ text, p.load a = some text ∧ text.hasPart part := by
  constructor
  · intro hm
    obtain ⟨hr, hl⟩ := (h.session_iff a).mp (h.inv.called _ hm)
    obtain ⟨text, hload⟩ := Option.isSome_iff_exists.mp hl
    obtain ⟨before, after, hs⟩ := List.append_of_mem hm
    exact ⟨hr, text, hload, ((h.inv.ordered before _ after hs a part rfl).2 text hload).1⟩
  · rintro ⟨hr, text, hload, hpart⟩
    have hn : text.named := hpart.imp id And.left
    obtain ⟨x, text', -, hload', hcomplete, hg⟩ :=
      h.complete ((h.session_iff a).mpr ⟨hr, by simp [hload]⟩) (hn.parsed hload)
    rw [hload] at hload'
    cases hload'
    have hfirst := hg.bound (by simp [hcomplete]) hn
    rcases hpart with hh | ⟨hh, rfl⟩
    · rw [hh] at hfirst
      cases part with
      | true => exact hfirst
      | false => exact hg.boundLater hcomplete hh
    · rw [hh] at hfirst
      exact hfirst

theorem Finished.cycle_reported (h : Finished p s) {a : α} (hr : p.Reaches p.entry a)
    (hc : TransGen p.NextFirst a a) :
    ∃ b, ReflTransGen p.NextFirst a b ∧ ∃ r ∈ s.reports, r.path = b ∧ r.fault = .cycle := by
  by_contra hno
  have hreaches {b : α} (hb : ReflTransGen p.NextFirst a b) : p.Reaches p.entry b :=
    hr.trans (reaches_of_first hb)
  have hparsed {b : α} (hb : TransGen p.NextFirst b b) : p.Parsed b :=
    (TransGen.next_on_cycle hb).choose_spec.1.next.parsed
  have hbound {b : α} (hb : ReflTransGen p.NextFirst a b) (hbb : TransGen p.NextFirst b b) :
      Established p s.calls b := by
    have hpb := hparsed hbb
    obtain ⟨text, hload, -⟩ := id hpb
    obtain ⟨x, text', -, hload', hcomplete, hg⟩ :=
      h.complete ((h.session_iff b).mpr ⟨hreaches hb, by simp [hload]⟩) hpb
    rw [hload] at hload'
    cases hload'
    obtain ⟨c, hbc, -⟩ := TransGen.next_on_cycle hbb
    have hn := hbc.named hload
    exact ⟨text, hload, hg.bound (by simp [hcomplete]) hn⟩
  obtain ⟨text, hload, hm⟩ := hbound .refl hc
  refine h.inv.ordered.not_mem (B := fun c => ∃ b text, ReflTransGen p.NextFirst a b ∧
    TransGen p.NextFirst b b ∧ p.load b = some text ∧
    c = .declarations b (decide (text.heading = .unit))) ?_ hm ⟨a, text, .refl, hc, hload, rfl⟩
  rintro before c ⟨b, text, hab, hbb, hload, rfl⟩ hprecedes
  obtain ⟨c, hbc, hcc⟩ := TransGen.next_on_cycle hbb
  have hac := hab.tail hbc
  obtain ⟨text', hload', unit, hu, hunit⟩ := id hbc
  rw [hload] at hload'
  cases hload'
  have hn := hbc.named hload
  rw [← hn.firstUses] at hu
  rcases ((hprecedes b _ rfl).2 text hload).2 unit hu c hunit (hparsed hcc) with
    ⟨textc, hloadc, hmc⟩ | ⟨r, hrm, hrb, hrc⟩
  · exact ⟨_, hmc, c, textc, hac, hcc, hloadc, rfl⟩
  · exact absurd ⟨b, hab, r, hrm, hrb, hrc⟩ hno

theorem Finished.reported_iff (h : Finished p s) :
    s.reports = [] ↔ ∀ a, p.Reaches p.entry a → (p.load a).isSome → ¬ p.Faulty s.reports a := by
  constructor
  · intro hnone a hr hload hf
    have ha := (h.session_iff a).mpr ⟨hr, hload⟩
    rcases hf with hp | ⟨text, hload', unit, hu, hunit⟩ | ⟨r, hm, -⟩ | hc
    · obtain ⟨x, hx⟩ := Option.isSome_iff_exists.mp ha
      obtain ⟨text, hload, hg⟩ := h.inv.good a x hx
      have hclosed : x.phase ≠ .parsingInterface := by
        rcases h.ended a x hx with hx | hx <;> simp [hx]
      obtain ⟨r, hm, -⟩ := hg.failed ((hg.not_parsed hload hclosed).mp hp)
      simp [hnone] at hm
    · have hp : p.Parsed a := by
        refine ⟨text, hload', fun hh => ?_⟩
        simp [Text.firstUses, Text.laterUses, Project.imported, hh] at hu
      obtain ⟨x, text', -, hload'', hcomplete, hg⟩ := h.complete ha hp
      rw [hload'] at hload''
      cases hload''
      obtain ⟨-, r, hm, -⟩ := (hg.settled hcomplete hu).unresolved hunit
      simp [hnone] at hm
    · simp [hnone] at hm
    · obtain ⟨b, -, r, hm, -⟩ := h.cycle_reported hr hc
      simp [hnone] at hm
  · intro hall
    by_contra hne
    obtain ⟨r, hm⟩ := List.exists_mem_of_ne_nil _ hne
    obtain ⟨hs, hj⟩ := h.inv.reported r hm
    obtain ⟨hr, hl⟩ := (h.session_iff r.path).mp hs
    exact hall r.path hr hl (hj.faulty hm)

theorem Finished.not_ok (h : Finished p s) {a : α} {x : Session} (hx : s.session a = some x)
    (hbad : x.hadError = true ∨ x.phase = .failed) : s.graph.Failing (p.unitName a) := by
  obtain ⟨text, -, hg⟩ := h.inv.good a x hx
  have hclosed : x.phase ≠ .parsingInterface := by
    rcases h.ended a x hx with hx | hx <;> simp [hx]
  obtain ⟨node, hnode, -⟩ := hg.unit hclosed
  refine ⟨_, _, .refl, mem_graph.mpr hnode, ?_⟩
  rcases hbad with hbad | hbad <;> simp [hbad]

theorem Finished.failing_of_next (hw : p.WellNamed) (h : Finished p s) {a b : α}
    (hr : p.Reaches p.entry a) (hab : p.Next a b)
    (hb : p.Parsed b → s.graph.Failing (p.unitName b)) : s.graph.Failing (p.unitName a) := by
  have hpa := hab.parsed
  obtain ⟨text, hload, unit, hu, hunit⟩ := id hab
  obtain ⟨x, text', hx, hload', hcomplete, hg⟩ :=
    h.complete ((h.session_iff a).mpr ⟨hr, by simp [hload]⟩) hpa
  rw [hload] at hload'
  cases hload'
  by_cases hpb : p.Parsed b
  · obtain ⟨node, hnode, hast⟩ := hg.unit (by simp [hcomplete])
    obtain ⟨ast, rfl, huses⟩ := hast hcomplete
    have hname : p.unitName b = unit := by simp [Project.unitName, hw.declared hunit hpb]
    obtain ⟨textb, hloadb, -⟩ := id hpb
    obtain ⟨y, textb', -, -, hyc, hgb⟩ := h.complete
      ((h.session_iff b).mpr ⟨hr.tail hab, by simp [hloadb]⟩) hpb
    obtain ⟨nodeb, hnodeb, -⟩ := hgb.unit (by simp [hyc])
    refine (hb hpb).of_uses ⟨List.mem_map.mpr ⟨_, mem_graph.mpr hnodeb, rfl⟩, _, ast,
      mem_graph.mpr hnode, rfl, ?_⟩
    rw [huses, hname]
    exact (List.mem_filter.mp hu).1
  · exact h.not_ok hx (.inl ((hg.settled hcomplete hu).unparsed b hunit hpb))

theorem Finished.failing_of_reaches (hw : p.WellNamed) (h : Finished p s) {a b : α}
    (hr : p.Reaches p.entry a) (hab : p.Reaches a b)
    (hb : p.Parsed b → s.graph.Failing (p.unitName b)) (ha : p.Parsed a) :
    s.graph.Failing (p.unitName a) := by
  induction hab using ReflTransGen.head_induction_on with
  | refl => exact hb ha
  | head hac _ ih => exact h.failing_of_next hw hr hac fun hc => ih (hr.tail hac) hc

theorem Finished.next_of_uses (hw : p.WellNamed) (h : Finished p s) {a : α} {x : Session}
    {text : Text} {name : String} (hload : p.load a = some text) (hcomplete : x.phase = .complete)
    (hg : Good p s a x text) (hu : s.graph.Uses (p.unitName a) name) :
    p.Unresolved a ∨ ∃ b, p.Next a b ∧ (s.session b).isSome ∧ p.unitName b = name := by
  obtain ⟨node, hnode, hast⟩ := hg.unit (by simp [hcomplete])
  obtain ⟨ast, rfl, huses⟩ := hast hcomplete
  obtain ⟨hname, unit, ast', hm, hast', hused⟩ := hu
  obtain ⟨e, he, rfl⟩ := List.mem_map.mp hname
  obtain ⟨b, hb, hbname⟩ := h.inv.unitNames e.1
    (AList.lookup_isSome.mp (by rw [mem_graph.mp he]; rfl))
  rw [mem_graph, hnode] at hm
  cases hm
  cases hast'
  rw [huses, ← hbname] at hused
  obtain ⟨hrb, hlb⟩ := (h.session_iff b).mp hb
  have hmem : p.unitName b ∈ p.imported (text.firstUses ++ text.laterUses) :=
    List.mem_filter.mpr ⟨hused, by simp [hw.apart b hlb]⟩
  cases hd : p.declared b with
  | some unit =>
    have hunit : p.unitName b = unit := by simp [Project.unitName, hd]
    rw [hunit] at hmem
    exact .inr ⟨b, ⟨text, hload, unit, hmem, hw.unitNamed hrb hd⟩, hb, hbname⟩
  | none =>
    refine .inl ⟨text, hload, _, hmem, ?_⟩
    unfold Project.unitNamed
    rw [if_neg fun he => ?_]
    · exact hw.unnamed b hlb hd
    · have hsame : p.entry = b :=
        hw.distinct p.entry b (load_of_declared he) hlb (by simp [Project.unitName, he])
      rw [hsame, hd] at he
      contradiction

theorem Finished.failing_iff (hw : p.WellNamed) (h : Finished p s) {a : α}
    (ha : (s.session a).isSome) : s.graph.Failing (p.unitName a) ↔
      ∃ b, p.Reaches a b ∧ p.Faulty s.reports b := by
  constructor
  · rintro ⟨name, unit, hpath, hm, hok⟩
    generalize hn : p.unitName a = first at hpath
    induction hpath using ReflTransGen.head_induction_on generalizing a with
    | refl =>
      obtain ⟨x, hx⟩ := Option.isSome_iff_exists.mp ha
      obtain ⟨text, hload, hg⟩ := h.inv.good a x hx
      have hclosed : x.phase ≠ .parsingInterface := by
        rcases h.ended a x hx with hx | hx <;> simp [hx]
      obtain ⟨node, hnode, -⟩ := hg.unit hclosed
      rw [mem_graph, ← hn, hnode] at hm
      cases hm
      rcases h.ended a x hx with hphase | hphase
      · exact hg.flagged (by simpa [hphase] using hok)
      · exact ⟨a, .refl, .inl ((hg.not_parsed hload hclosed).mpr hphase)⟩
    | @head first next huse _ ih =>
      by_cases hp : p.Parsed a
      · obtain ⟨x, text, hx, hload, hcomplete, hg⟩ := h.complete ha hp
        rw [← hn] at huse
        rcases h.next_of_uses hw hload hcomplete hg huse with hf | ⟨b, hab, hb, hname⟩
        · exact ⟨a, .refl, .inr (.inl hf)⟩
        · obtain ⟨c, hbc, hc⟩ := ih hb hname
          exact ⟨c, .head hab hbc, hc⟩
      · exact ⟨a, .refl, .inl hp⟩
  · rintro ⟨b, hab, hf⟩
    obtain ⟨hr, hl⟩ := (h.session_iff a).mp ha
    have hrb := hr.trans hab
    obtain ⟨x, hx⟩ := Option.isSome_iff_exists.mp ha
    obtain ⟨text, hload, hg⟩ := h.inv.good a x hx
    have hclosed : x.phase ≠ .parsingInterface := by
      rcases h.ended a x hx with hx | hx <;> simp [hx]
    by_cases hp : p.Parsed a
    · refine h.failing_of_reaches hw hr hab (fun hpb => ?_) hp
      obtain ⟨textb, hloadb, -⟩ := id hpb
      obtain ⟨y, textb', hy, hloadb', hyc, hgb⟩ :=
        h.complete ((h.session_iff b).mpr ⟨hrb, by simp [hloadb]⟩) hpb
      rcases hf with hf | ⟨textb'', hloadb'', unit, hu, hunit⟩ | ⟨r, hm, hrpath, -⟩ | hc
      · exact absurd hpb hf
      · rw [hloadb'] at hloadb''
        cases hloadb''
        exact h.not_ok hy (.inl ((hgb.settled hyc hu).unresolved hunit).1)
      · exact h.not_ok hy (.inl (hgb.blamed (by simp [hyc]) r hm hrpath))
      · obtain ⟨c, hbc, r, hm, hrc, -⟩ := h.cycle_reported hrb hc
        refine h.failing_of_reaches hw hrb (reaches_of_first hbc) (fun hpc => ?_) hpb
        obtain ⟨hs, -⟩ := h.inv.reported r hm
        rw [hrc] at hs
        obtain ⟨z, textc, hz, -, hzc, hgc⟩ := h.complete hs hpc
        exact h.not_ok hz (.inl (hgc.blamed (by simp [hzc]) r hm hrc))
    · exact h.not_ok hx (.inr ((hg.not_parsed hload hclosed).mp hp))

/-- A discovery ends with a session for every file that can be read and that uses lead to. Each
part of each is bound once, and after the declarations of the files it uses unless its file lies
on a cycle of first uses. -/
theorem discoverFromEntry_binds (hw : p.WellNamed) {files : Finset α} (hfiles : p.Within files)
    (σ : HashOrder Nat) {fuel : Nat} (hfuel : files.card < fuel) :
    ∃ errors s g, discoverFromEntry p σ fuel = some (errors, s, g) ∧
      (∀ a, (s.session a).isSome ↔ p.Reaches p.entry a ∧ (p.load a).isSome) ∧
      (∀ a part, .declarations a part ∈ s.calls ↔
        p.Reaches p.entry a ∧ ∃ text, p.load a = some text ∧ text.hasPart part) ∧
      ∀ before a part after, s.calls = before ++ .declarations a part :: after →
        .declarations a part ∉ before ∧
        (¬ TransGen p.NextFirst a a → ∀ text, p.load a = some text →
          ∀ unit ∈ p.imported (text.partUses part), ∀ b, p.unitNamed unit = some b → p.Parsed b →
            Established p before b) := by
  obtain ⟨errors, s, g, hrun, hinv, hended, hentry, -, -⟩ :=
    discoverFromEntry_runs hw hfiles σ hfuel
  have h : Finished p s := ⟨hinv, hended, hentry⟩
  refine ⟨errors, s, g, hrun, h.session_iff, h.bound_iff, fun before a part after hs => ?_⟩
  obtain ⟨hnew, huses⟩ := hinv.ordered before _ after hs a part rfl
  refine ⟨hnew, fun hacyclic text hload unit hu b hb hp => ?_⟩
  refine ((huses text hload).2 unit hu b hb hp).resolve_right ?_
  rintro ⟨r, hm, rfl, hcycle⟩
  have hj := (hinv.reported r hm).2
  simp only [Justified, hcycle] at hj
  exact hacyclic hj

/-- A program uses a unit whose interface uses another, which in turn uses it back behind its own
interface. -/
def backUse : Project (Fin 3) where
  entry := 0
  load
    | 0 => some ⟨.program, ⟨"Main", [], [], ["A", "SysUtils"], [], none, none, true⟩⟩
    | 1 => some ⟨.unit, ⟨"A", ["B"], [], [], [], none, none, false⟩⟩
    | 2 => some ⟨.unit, ⟨"b", [], [], ["a"], [], none, none, false⟩⟩
  findUnitPath unit := if unit = "a" then some 1 else if unit = "b" then some 2 else none
  hasRuntimeUnitModel unit := decide (unit = "sysutils")
  stem _ := ""
  display _ := ""
  textErrors _ _ _ := []

theorem backUse_wellNamed : backUse.WellNamed where
  found := by
    intro unit a text hu hload
    simp only [backUse] at hu
    split_ifs at hu with h h' <;> cases hu <;> cases hload
    · exact .inr ⟨.inl rfl, by rw [h]; rfl⟩
    · exact .inr ⟨.inl rfl, by rw [h']; rfl⟩
  named := by
    intro a text hload _
    fin_cases a <;> cases hload <;> decide
  distinct := by decide
  apart := by decide
  unnamed := by decide

theorem backUse_within : backUse.Within Finset.univ :=
  ⟨Finset.mem_univ _, fun _ _ _ => Finset.mem_univ _⟩

theorem backUse_binds : ∃ errors s g, discoverFromEntry backUse .entries 4 = some (errors, s, g) ∧
    (∀ a, (s.session a).isSome ↔ backUse.Reaches 0 a ∧ (backUse.load a).isSome) ∧
    (∀ a part, .declarations a part ∈ s.calls ↔
      backUse.Reaches 0 a ∧ ∃ text, backUse.load a = some text ∧ text.hasPart part) ∧
    ∀ before a part after, s.calls = before ++ .declarations a part :: after →
      .declarations a part ∉ before ∧
      (¬ TransGen backUse.NextFirst a a → ∀ text, backUse.load a = some text →
        ∀ unit ∈ backUse.imported (text.partUses part), ∀ b, backUse.unitNamed unit = some b →
          backUse.Parsed b → Established backUse before b) :=
  discoverFromEntry_binds backUse_wellNamed backUse_within .entries (show 3 < 4 by decide)

end
end Tp2cc.Discovery
