import Tp2cc.Order.Dominance
import Tp2cc.Units.Discovery

set_option autoImplicit false

namespace Tp2cc.Discovery
open Relation Order

section
variable {α : Type} [DecidableEq α] (p : Project α)

def Text.named (text : Text) : Prop := text.heading = .unit ∨ text.heading = .program

instance (text : Text) : Decidable text.named :=
  inferInstanceAs (Decidable (text.heading = .unit ∨ text.heading = .program))

def Text.firstUses (text : Text) : List String :=
  match text.heading with
  | .unit => text.node.interfaceUses
  | .program => text.node.implUses
  | .body => []
  | .other => []

def Text.laterUses (text : Text) : List String :=
  match text.heading with
  | .unit => text.node.implUses
  | .program => []
  | .body => []
  | .other => []

def Text.partUses (text : Text) (inInterface : Bool) : List String :=
  match text.heading, inInterface with
  | .unit, true => text.node.interfaceUses
  | .unit, false => text.node.implUses
  | .program, false => text.node.implUses
  | _, _ => []

/-- A unit has an interface and an implementation, a program one part. -/
def Text.hasPart (text : Text) (inInterface : Bool) : Prop :=
  text.heading = .unit ∨ text.heading = .program ∧ inInterface = false

namespace Project

def declared (path : α) : Option String :=
  (p.load path).bind fun text => if text.named then some (toLower text.node.name) else none

def unitName (path : α) : String := (p.declared path).getD ("__prog_" ++ p.stem path)

def imported (imports : List String) : List String :=
  (imports.map toLower).filter fun unit => !p.hasRuntimeUnitModel unit

def unitNamed (unit : String) : Option α :=
  if p.declared p.entry = some unit then some p.entry else p.findUnitPath unit

/-- `a` needs the interface of `b` for its first part. -/
def NextFirst (a b : α) : Prop :=
  ∃ text, p.load a = some text ∧ ∃ unit ∈ p.imported text.firstUses, p.unitNamed unit = some b

def Next (a b : α) : Prop :=
  ∃ text, p.load a = some text ∧
    ∃ unit ∈ p.imported (text.firstUses ++ text.laterUses), p.unitNamed unit = some b

def Reaches : α → α → Prop := ReflTransGen p.Next

/-- A file that can be read and starts as a unit or program does. -/
def Parsed (a : α) : Prop := ∃ text, p.load a = some text ∧ text.heading ≠ .other

def Unresolved (a : α) : Prop :=
  ∃ text, p.load a = some text ∧
    ∃ unit ∈ p.imported (text.firstUses ++ text.laterUses), p.unitNamed unit = none

/-- A file that keeps those that use it from being translated. -/
def Faulty (reports : List (Report α)) (a : α) : Prop :=
  ¬ p.Parsed a ∨ p.Unresolved a ∨ (∃ r ∈ reports, r.path = a ∧ r.fault = .text) ∨
    TransGen p.NextFirst a a

/-- Files are found under the names they declare, which differ. -/
structure WellNamed : Prop where
  found : ∀ unit a text, p.findUnitPath unit = some a → p.load a = some text →
    text.heading = .other ∨ text.named ∧ toLower text.node.name = unit
  named : ∀ a text, p.load a = some text → text.named → toLower text.node.name ≠ ""
  distinct : ∀ a b, (p.load a).isSome → (p.load b).isSome → p.unitName a = p.unitName b → a = b
  apart : ∀ a, (p.load a).isSome → p.hasRuntimeUnitModel (p.unitName a) = false
  unnamed : ∀ a, (p.load a).isSome → p.declared a = none → p.findUnitPath (p.unitName a) = none

end Project

/-- What a use makes of the session of `a`, whose file has it. -/
structure Settled (s : State α) (a : α) (x : Session) (unit : String) : Prop where
  unresolved : p.unitNamed unit = none → x.hadError = true ∧ ∃ r ∈ s.reports, r.path = a
  found : ∀ b, p.unitNamed unit = some b → (p.load b).isSome → (s.session b).isSome
  unparsed : ∀ b, p.unitNamed unit = some b → ¬ p.Parsed b → x.hadError = true

/-- The declarations that the uses of a file ask for are bound. -/
def Established (calls : List (Call α)) (a : α) : Prop :=
  ∃ text, p.load a = some text ∧ .declarations a (decide (text.heading = .unit)) ∈ calls

/-- Declarations are bound once, after those of the units they see, unless these use them back. -/
def Precedes (reports : List (Report α)) (before : List (Call α)) (c : Call α) : Prop :=
  ∀ a part, c = .declarations a part → c ∉ before ∧ ∀ text, p.load a = some text →
    text.hasPart part ∧ ∀ unit ∈ p.imported (text.partUses part), ∀ b, p.unitNamed unit = some b → p.Parsed b →
      Established p before b ∨ ∃ r ∈ reports, r.path = a ∧ r.fault = .cycle

def Justified (r : Report α) : Prop :=
  match r.fault with
  | .cycle => TransGen p.NextFirst r.path r.path
  | .unresolved => p.Unresolved r.path
  | .text => True

structure Good (s : State α) (a : α) (x : Session) (text : Text) : Prop where
  reached : p.Reaches p.entry a
  phase : x.phase = .parsingInterface ∧ text.named ∨
    x.name = p.unitName a ∧ (x.phase = text.phase ∨ text.heading = .unit ∧ x.phase = .complete)
  flagged : x.hadError = true → ∃ b, p.Reaches a b ∧ p.Faulty s.reports b
  blamed : x.phase ≠ .parsingInterface → ∀ r ∈ s.reports, r.path = a → x.hadError = true
  failed : x.phase = .failed → ∃ r ∈ s.reports, r.path = a
  first : x.phase ≠ .parsingInterface → ∀ unit ∈ p.imported text.firstUses, Settled p s a x unit
  later : x.phase = .complete → ∀ unit ∈ p.imported text.laterUses, Settled p s a x unit
  bound : x.phase ≠ .parsingInterface → text.named →
    .declarations a (decide (text.heading = .unit)) ∈ s.calls
  boundLater : x.phase = .complete → text.heading = .unit → .declarations a false ∈ s.calls
  unbound : x.phase = .parsingInterface → ∀ part, .declarations a part ∉ s.calls
  unboundLater : x.phase = .interfaceReady → .declarations a false ∉ s.calls
  unit : x.phase ≠ .parsingInterface → ∃ node,
    s.units.lookup (p.unitName a) = some ⟨node, !x.hadError && decide (x.phase = .complete)⟩ ∧
    (x.phase = .complete → ∃ ast, node = some ast ∧
      ast.interfaceUses ++ ast.implUses = text.firstUses ++ text.laterUses)

structure Inv (s : State α) : Prop where
  good : ∀ a x, s.session a = some x → ∃ text, p.load a = some text ∧ Good p s a x text
  entry : ∀ a, (s.session a).isSome → (s.session p.entry).isSome
  byName : ∀ unit a, s.sessionsByName.lookup unit = some a ↔
    (s.session a).isSome ∧ p.declared a = some unit
  unitNames : ∀ unit ∈ s.units, ∃ a, (s.session a).isSome ∧ p.unitName a = unit
  reported : ∀ r ∈ s.reports, (s.session r.path).isSome ∧ Justified p r
  called : ∀ c ∈ s.calls, (s.session c.path).isSome
  ordered : Follows (Precedes p s.reports) s.calls

structure Touches (a : α) (x : Session) (s s' : State α) : Prop where
  session : ∀ b, s'.session b = if b = a then some x else s.session b
  reports : ∃ new, s'.reports = s.reports ++ new ∧ ∀ r ∈ new, r.path = a ∧ Justified p r
  calls : ∃ new, s'.calls = s.calls ++ new ∧ ∀ c ∈ new, c.path = a
  byName : ∀ unit b, s'.sessionsByName.lookup unit = some b ↔
    (s'.session b).isSome ∧ p.declared b = some unit
  units : ∀ b, b ≠ a → (s.session b).isSome →
    s'.units.lookup (p.unitName b) = s.units.lookup (p.unitName b)
  unitNames : ∀ unit ∈ s'.units, ∃ b, (s'.session b).isSome ∧ p.unitName b = unit
  entry : (s'.session p.entry).isSome

end

section
variable {α : Type} {p : Project α}

theorem Project.NextFirst.next {a b : α} (h : p.NextFirst a b) : p.Next a b := by
  obtain ⟨text, hload, unit, hu, hb⟩ := h
  refine ⟨text, hload, unit, ?_, hb⟩
  simp only [Project.imported, List.map_append, List.filter_append, List.mem_append] at hu ⊢
  exact .inl hu

theorem Project.Faulty.mono {reports new : List (Report α)} {a : α} (h : p.Faulty reports a) :
    p.Faulty (reports ++ new) a := by
  rcases h with h | h | ⟨r, hr, h⟩ | h
  · exact .inl h
  · exact .inr (.inl h)
  · exact .inr (.inr (.inl ⟨r, List.mem_append_left _ hr, h⟩))
  · exact .inr (.inr (.inr h))

theorem Justified.faulty {reports : List (Report α)} {r : Report α} (h : Justified p r)
    (hr : r ∈ reports) : p.Faulty reports r.path := by
  cases hf : r.fault with
  | cycle =>
    simp only [Justified, hf] at h
    exact .inr (.inr (.inr h))
  | unresolved =>
    simp only [Justified, hf] at h
    exact .inr (.inl h)
  | text => exact .inr (.inr (.inl ⟨r, hr, rfl, hf⟩))

theorem Precedes.mono {reports new : List (Report α)} {before : List (Call α)} {c : Call α}
    (h : Precedes p reports before c) : Precedes p (reports ++ new) before c := by
  intro a part hc
  refine ⟨(h a part hc).1, fun text hl => ⟨((h a part hc).2 text hl).1, fun unit hu b hb hp => ?_⟩⟩
  rcases ((h a part hc).2 text hl).2 unit hu b hb hp with he | ⟨r, hr, h⟩
  · exact .inl he
  · exact .inr ⟨r, List.mem_append_left _ hr, h⟩

theorem declared_eq {a : α} {text : Text} (hload : p.load a = some text) (hn : text.named) :
    p.declared a = some (toLower text.node.name) := by
  simp [Project.declared, hload, hn]

theorem declared_none {a : α} {text : Text} (hload : p.load a = some text) (hn : ¬ text.named) :
    p.declared a = none := by
  simp [Project.declared, hload, hn]

theorem declared_named {a : α} {unit : String} (h : p.declared a = some unit) :
    ∃ text, p.load a = some text ∧ text.named ∧ toLower text.node.name = unit := by
  obtain ⟨text, hload, ht⟩ := Option.bind_eq_some_iff.mp h
  split at ht
  · exact ⟨text, hload, by assumption, Option.some.inj ht⟩
  · contradiction

theorem load_of_declared {a : α} {unit : String} (h : p.declared a = some unit) :
    (p.load a).isSome := by
  obtain ⟨text, hload, -⟩ := declared_named h
  simp [hload]

/-- A file that uses lead to is the one its own name leads to. -/
theorem Project.WellNamed.unitNamed (hw : p.WellNamed) {a : α} {unit : String}
    (hr : p.Reaches p.entry a) (hd : p.declared a = some unit) : p.unitNamed unit = some a := by
  unfold Project.unitNamed
  split
  case isTrue he =>
    rw [hw.distinct p.entry a (load_of_declared he) (load_of_declared hd)
      (by simp [Project.unitName, he, hd])]
  case isFalse he =>
    rcases hr.cases_tail with heq | ⟨c, -, hc⟩
    · exact absurd (heq ▸ hd) he
    · obtain ⟨-, -, unit', -, hc⟩ := hc
      unfold Project.unitNamed at hc
      split at hc
      · cases hc
        exact absurd hd he
      · obtain ⟨text, hload, hn, hname⟩ := declared_named hd
        rcases hw.found unit' a text hc hload with hother | ⟨-, hname'⟩
        · rcases hn with hn | hn <;> simp [hn] at hother
        · rwa [← hname, hname']

theorem Text.named.parsed {a : α} {text : Text} (hn : text.named) (hload : p.load a = some text) :
    p.Parsed a := by
  refine ⟨text, hload, ?_⟩
  rcases hn with hn | hn <;> simp [hn]

theorem Project.WellNamed.text_named (hw : p.WellNamed) {a : α} {unit : String} {text : Text}
    (hu : p.unitNamed unit = some a) (hload : p.load a = some text) (hp : text.heading ≠ .other) :
    text.named := by
  unfold Project.unitNamed at hu
  split at hu
  case isTrue he =>
    obtain ⟨text', hload', hn, -⟩ := declared_named he
    rw [Option.some.inj hu, hload] at hload'
    cases hload'
    exact hn
  case isFalse => exact ((hw.found unit a text hu hload).resolve_left hp).1

theorem Project.WellNamed.nodeName (hw : p.WellNamed) {a : α} {text : Text}
    (hload : p.load a = some text) : nodeName p a text.parsed = p.unitName a := by
  have hempty : toLower "" = "" := rfl
  by_cases hn : text.named
  · have hne := hw.named a text hload hn
    rcases id hn with hh | hh <;>
      simp [Project.unitName, Discovery.nodeName, Text.parsed, declared_eq hload hn, hh, hne]
  · cases hh : text.heading with
    | unit => exact absurd (.inl hh) hn
    | program => exact absurd (.inr hh) hn
    | body =>
      simp [Project.unitName, Discovery.nodeName, Text.parsed, declared_none hload hn, hh, hempty]
    | other =>
      simp [Project.unitName, Discovery.nodeName, Text.parsed, declared_none hload hn, hh]

theorem Text.named.firstUses {text : Text} (hn : text.named) :
    text.partUses (decide (text.heading = .unit)) = text.firstUses := by
  rcases hn with hn | hn <;> simp [Text.partUses, Text.firstUses, hn]

def Project.Within (p : Project α) (files : Finset α) : Prop :=
  p.entry ∈ files ∧ ∀ unit a, p.findUnitPath unit = some a → a ∈ files

theorem Project.Within.mem {files : Finset α} (h : p.Within files) {a : α}
    (hr : p.Reaches p.entry a) : a ∈ files := by
  rcases hr.cases_tail with rfl | ⟨c, -, -, -, unit, -, hc⟩
  · exact h.1
  · unfold Project.unitNamed at hc
    split at hc
    · rw [← Option.some.inj hc]
      exact h.1
    · exact h.2 unit a hc

variable {s : State α}

@[simp] theorem calls_declarations (a : α) (part : Bool) :
    (declarations p a part s).calls = s.calls ++ [.declarations a part] := rfl

@[simp] theorem calls_call (c : Call α) : (s.call c).calls = s.calls ++ [c] := rfl
@[simp] theorem reports_call (c : Call α) : (s.call c).reports = s.reports := rfl

theorem reports_declarations (p : Project α) (s : State α) (a : α) (part : Bool) : ∃ new,
    (declarations p a part s).reports = s.reports ++ new ∧ ∀ r ∈ new, r.path = a ∧ Justified p r := by
  refine ⟨_, rfl, fun r hr => ?_⟩
  obtain ⟨message, -, rfl⟩ := List.mem_map.mp hr
  exact ⟨rfl, trivial⟩

end

section
variable {α : Type} [DecidableEq α] {p : Project α} {s s' : State α}

theorem Settled.mono {a : α} {x x' : Session} {unit : String} (h : Settled p s a x unit)
    (hx : x.hadError = true → x'.hadError = true)
    (hs : ∀ a, (s.session a).isSome → (s'.session a).isSome)
    (hr : ∃ new, s'.reports = s.reports ++ new) : Settled p s' a x' unit := by
  obtain ⟨new, hr⟩ := hr
  refine ⟨fun hu => ⟨hx (h.unresolved hu).1, ?_⟩, fun b hb hl => hs b (h.found b hb hl),
    fun b hb hp => hx (h.unparsed b hb hp)⟩
  obtain ⟨r, hm, hra⟩ := (h.unresolved hu).2
  exact ⟨r, hr ▸ List.mem_append_left _ hm, hra⟩

theorem Good.mono {a : α} {x : Session} {text : Text} (h : Good p s a x text)
    (hs : ∀ b, (s.session b).isSome → (s'.session b).isSome)
    (hr : ∃ new, s'.reports = s.reports ++ new ∧ ∀ r ∈ new, r.path ≠ a)
    (hc : ∃ new, s'.calls = s.calls ++ new ∧ ∀ c ∈ new, c.path ≠ a)
    (hu : s'.units.lookup (p.unitName a) = s.units.lookup (p.unitName a)) :
    Good p s' a x text := by
  obtain ⟨newr, hr, hnewr⟩ := hr
  obtain ⟨newc, hc, hnewc⟩ := hc
  have hcall {part : Bool} (hm : .declarations a part ∈ s'.calls) :
      .declarations a part ∈ s.calls := by
    rw [hc] at hm
    rcases List.mem_append.mp hm with hm | hm
    · exact hm
    · exact absurd rfl (hnewc _ hm)
  refine { reached := h.reached, phase := h.phase, flagged := ?_, blamed := ?_, failed := ?_,
           first := ?_, later := ?_, bound := ?_, boundLater := ?_, unbound := ?_, unboundLater := ?_,
           unit := ?_ }
  · intro hx
    obtain ⟨b, hab, hb⟩ := h.flagged hx
    exact ⟨b, hab, hr ▸ hb.mono⟩
  · intro hx r hm hra
    rw [hr] at hm
    rcases List.mem_append.mp hm with hm | hm
    · exact h.blamed hx r hm hra
    · exact absurd hra (hnewr r hm)
  · intro hx
    obtain ⟨r, hm, hra⟩ := h.failed hx
    exact ⟨r, hr ▸ List.mem_append_left _ hm, hra⟩
  · exact fun hx unit hm => (h.first hx unit hm).mono id hs ⟨newr, hr⟩
  · exact fun hx unit hm => (h.later hx unit hm).mono id hs ⟨newr, hr⟩
  · exact fun hx hn => hc ▸ List.mem_append_left _ (h.bound hx hn)
  · exact fun hx hn => hc ▸ List.mem_append_left _ (h.boundLater hx hn)
  · exact fun hx part hm => h.unbound hx part (hcall hm)
  · exact fun hx hm => h.unboundLater hx (hcall hm)
  · rw [hu]
    exact h.unit

theorem Touches.isSome {a : α} {x : Session} (t : Touches p a x s s') (b : α)
    (h : (s.session b).isSome) : (s'.session b).isSome := by
  rw [t.session]
  split
  · rfl
  · exact h

theorem Inv.touch {a : α} {x : Session} {text : Text} (h : Inv p s) (t : Touches p a x s s')
    (hload : p.load a = some text) (hgood : Good p s' a x text)
    (hordered : Follows (Precedes p s'.reports) s'.calls) : Inv p s' := by
  obtain ⟨newr, hr, hnewr⟩ := t.reports
  obtain ⟨newc, hc, hnewc⟩ := t.calls
  have hself : (s'.session a).isSome := by simp [t.session]
  refine { good := fun b y hb => ?_, entry := fun _ _ => t.entry, byName := t.byName,
           unitNames := t.unitNames, reported := fun r hm => ?_, called := fun c hm => ?_,
           ordered := hordered }
  · rw [t.session] at hb
    by_cases hba : b = a
    · subst hba
      simp only [if_true, Option.some.injEq] at hb
      subst hb
      exact ⟨text, hload, hgood⟩
    · rw [if_neg hba] at hb
      obtain ⟨text', hload', hg⟩ := h.good b y hb
      refine ⟨text', hload', hg.mono t.isSome ⟨newr, hr, fun r hm hrb => ?_⟩
        ⟨newc, hc, fun c hm hcb => ?_⟩ (t.units b hba (by simp [hb]))⟩
      · exact hba (hrb ▸ (hnewr r hm).1)
      · exact hba (hcb ▸ hnewc c hm)
  · rw [hr] at hm
    rcases List.mem_append.mp hm with hm | hm
    · exact ⟨t.isSome _ (h.reported r hm).1, (h.reported r hm).2⟩
    · exact ⟨(hnewr r hm).1 ▸ hself, (hnewr r hm).2⟩
  · rw [hc] at hm
    rcases List.mem_append.mp hm with hm | hm
    · exact t.isSome _ (h.called c hm)
    · exact hnewc c hm ▸ hself

section
variable (a : α) (f : Session → Session) (name : String) (fault : Fault) (message : String)
  (c : Call α) (x : Session)

@[simp] theorem session_setSession (b : α) :
    (s.setSession a x).session b = if b = a then some x else s.session b := by
  simp only [State.session, State.setSession]
  split
  case isTrue h => rw [h, AList.lookup_insert]
  case isFalse h => rw [AList.lookup_insert_ne h]

@[simp] theorem reports_setSession : (s.setSession a x).reports = s.reports := rfl
@[simp] theorem calls_setSession : (s.setSession a x).calls = s.calls := rfl
@[simp] theorem units_setSession : (s.setSession a x).units = s.units := rfl
@[simp] theorem byName_setSession : (s.setSession a x).sessionsByName = s.sessionsByName := rfl

@[simp] theorem session_update (b : α) :
    (s.update a f).session b = if b = a then (s.session a).map f else s.session b := by
  unfold State.update
  cases h : s.session a with
  | none =>
    by_cases hb : b = a <;> simp [hb, h]
  | some x => simp

@[simp] theorem reports_update : (s.update a f).reports = s.reports := by
  unfold State.update
  split <;> rfl

@[simp] theorem calls_update : (s.update a f).calls = s.calls := by
  unfold State.update
  split <;> rfl

@[simp] theorem units_update : (s.update a f).units = s.units := by
  unfold State.update
  split <;> rfl

@[simp] theorem byName_update : (s.update a f).sessionsByName = s.sessionsByName := by
  unfold State.update
  split <;> rfl

@[simp] theorem session_report (b : α) : (s.report a fault message).session b = s.session b := rfl
@[simp] theorem session_call (b : α) : (s.call c).session b = s.session b := rfl

theorem session_beginCompilationUnit (b : α) : (s.beginCompilationUnit a name).session b =
    if b = a then (s.session a).map fun x => { x with name := toLower name } else s.session b :=
  session_update a (fun x => { x with name := toLower name }) b

@[simp] theorem reports_beginCompilationUnit :
    (s.beginCompilationUnit a name).reports = s.reports :=
  reports_update a fun x => { x with name := toLower name }

@[simp] theorem calls_beginCompilationUnit : (s.beginCompilationUnit a name).calls =
    s.calls ++ [.beginUnit a (toLower name)] := by
  simp [State.beginCompilationUnit]

theorem byName_beginCompilationUnit (h : s.sessionsByName.lookup (toLower name) = none) :
    (s.beginCompilationUnit a name).sessionsByName = s.sessionsByName.insert (toLower name) a := by
  simp [State.beginCompilationUnit, h]

theorem lookup_beginCompilationUnit {unit : String} (h : unit ≠ toLower name) :
    (s.beginCompilationUnit a name).units.lookup unit = s.units.lookup unit := by
  simp only [State.beginCompilationUnit, units_update]
  split
  · rfl
  · rw [AList.lookup_insert_ne h]

theorem mem_beginCompilationUnit {unit : String}
    (h : unit ∈ (s.beginCompilationUnit a name).units) : unit = toLower name ∨ unit ∈ s.units := by
  simp only [State.beginCompilationUnit, units_update] at h
  split at h
  · exact .inr h
  · exact AList.mem_insert _ |>.mp h

end

theorem Inv.name_eq {unit : String} {a b : α} (h : Inv p s) (hw : p.WellNamed)
    (hb : s.sessionsByName.lookup unit = some b) (ha : (p.load a).isSome)
    (hd : p.declared a = some unit) : b = a := by
  obtain ⟨hs, hdb⟩ := (h.byName unit b).mp hb
  obtain ⟨y, hy⟩ := Option.isSome_iff_exists.mp hs
  obtain ⟨text, hload, -⟩ := h.good b y hy
  refine hw.distinct b a (by simp [hload]) ha ?_
  simp [Project.unitName, hd, hdb]

theorem Inv.enter {a : α} {text : Text} (h : Inv p s) (hw : p.WellNamed) (ha : s.session a = none)
    (hload : p.load a = some text) (hn : text.named) (hreach : p.Reaches p.entry a)
    (hentry : a = p.entry ∨ (s.session p.entry).isSome) :
    Inv p ((s.setSession a ⟨"", false, .parsingInterface⟩).beginCompilationUnit a
      text.node.name) := by
  have hd := declared_eq hload hn
  have hname : p.unitName a = toLower text.node.name := by simp [Project.unitName, hd]
  have hfree : s.sessionsByName.lookup (toLower text.node.name) = none := by
    cases hb : s.sessionsByName.lookup (toLower text.node.name) with
    | none => rfl
    | some b =>
      have hs := ((h.byName _ b).mp hb).1
      rw [h.name_eq hw hb (by simp [hload]) hd, ha] at hs
      contradiction
  have hcall {c : Call α} (hc : c ∈ s.calls) : c.path ≠ a := by
    intro hca
    have hs := h.called c hc
    rw [hca, ha] at hs
    contradiction
  have hunits (b : α) (hba : b ≠ a) (hb : (s.session b).isSome) :
      p.unitName b ≠ toLower text.node.name := by
    intro hu
    obtain ⟨y, hy⟩ := Option.isSome_iff_exists.mp hb
    obtain ⟨text', hload', -⟩ := h.good b y hy
    exact hba (hw.distinct b a (by simp [hload']) (by simp [hload]) (hu.trans hname.symm))
  have hsession (b : α) : ((s.setSession a ⟨"", false, .parsingInterface⟩).beginCompilationUnit a
      text.node.name).session b =
      if b = a then some ⟨toLower text.node.name, false, .parsingInterface⟩ else s.session b := by
    rw [session_beginCompilationUnit]
    by_cases hb : b = a <;> simp [hb]
  have hself : (((s.setSession a ⟨"", false, .parsingInterface⟩).beginCompilationUnit a
      text.node.name).session a).isSome := by simp [hsession]
  refine h.touch { session := hsession, reports := ⟨[], by simp, by simp⟩,
                   calls := ⟨[.beginUnit a (toLower text.node.name)], by simp, by simp [Call.path]⟩,
                   byName := fun unit b => ?_, units := fun b hb hs => ?_,
                   unitNames := fun unit hm => ?_, entry := ?_ } hload ?_ ?_
  · rw [byName_beginCompilationUnit a _ (by rwa [byName_setSession]), hsession]
    by_cases hu : unit = toLower text.node.name
    · subst hu
      rw [AList.lookup_insert]
      by_cases hb : b = a
      · simp [hb, hd]
      · simp only [Option.some.injEq, if_neg hb, Ne.symm hb, false_iff, not_and]
        intro hs hdb
        exact hunits b hb hs (by simp [Project.unitName, hdb])
    · rw [AList.lookup_insert_ne hu]
      have hold := h.byName unit b
      by_cases hb : b = a
      · subst hb
        simp only [byName_setSession, hold, ha, if_true, hd, Option.some.injEq]
        simp [Ne.symm hu]
      · simpa [hb] using hold
  · rw [lookup_beginCompilationUnit _ _ (hunits b hb hs)]
    rfl
  · rcases mem_beginCompilationUnit _ _ hm with rfl | hm
    · exact ⟨a, hself, hname⟩
    · obtain ⟨b, hb, hu⟩ := h.unitNames unit hm
      refine ⟨b, ?_, hu⟩
      rw [hsession]
      split
      · rfl
      · exact hb
  · rcases hentry with rfl | hentry
    · exact hself
    · rw [hsession]
      split
      · rfl
      · exact hentry
  · exact { reached := hreach, phase := .inl ⟨rfl, hn⟩, flagged := by simp, blamed := by simp,
            failed := by simp, first := by simp, later := by simp, bound := by simp, boundLater := by simp,
            unbound := fun _ part hm => by
              simp only [calls_beginCompilationUnit, List.mem_append, List.mem_singleton] at hm
              rcases hm with hm | hm
              · exact hcall hm rfl
              · contradiction,
            unboundLater := by simp, unit := by simp }
  · simp only [reports_beginCompilationUnit, calls_beginCompilationUnit]
    refine h.ordered.append_singleton fun b part hc => ?_
    contradiction

@[simp] theorem session_fail (a b : α) : (s.fail a).session b =
    if b = a then (s.session a).map fun x => { x with hadError := true } else s.session b :=
  session_update a _ b

@[simp] theorem reports_fail (a : α) : (s.fail a).reports = s.reports := reports_update a _
@[simp] theorem calls_fail (a : α) : (s.fail a).calls = s.calls := calls_update a _
@[simp] theorem units_fail (a : α) : (s.fail a).units = s.units := units_update a _

@[simp] theorem byName_fail (a : α) : (s.fail a).sessionsByName = s.sessionsByName :=
  byName_update a _

theorem Good.fail {a : α} {x : Session} {text : Text} (h : Good p s a x text)
    (hopen : x.phase ≠ .complete) (hs : ∀ b, (s.session b).isSome → (s'.session b).isSome)
    (hr : ∃ new, s'.reports = s.reports ++ new) (hc : s'.calls = s.calls) (hu : s'.units = s.units)
    (hb : ∃ b, p.Reaches a b ∧ p.Faulty s'.reports b) :
    Good p s' a { x with hadError := true } text := by
  refine { reached := h.reached, phase := h.phase, flagged := fun _ => hb,
           blamed := fun _ _ _ _ => rfl, failed := fun hx => ?_,
           first := fun hx unit hm => (h.first hx unit hm).mono (fun _ => rfl) hs hr,
           later := fun hx => absurd hx hopen, bound := hc ▸ h.bound,
           boundLater := hc ▸ h.boundLater, unbound := hc ▸ h.unbound,
           unboundLater := hc ▸ h.unboundLater, unit := fun hx => ?_ }
  · obtain ⟨new, hr⟩ := hr
    obtain ⟨r, hm, hra⟩ := h.failed hx
    exact ⟨r, hr ▸ List.mem_append_left _ hm, hra⟩
  · obtain ⟨node, hn, -⟩ := h.unit hx
    refine ⟨node, ?_, fun hc => absurd hc hopen⟩
    simpa [hopen, hu] using hn

theorem Inv.entry_isSome {a : α} {x : Session} (h : Inv p s) (hx : s.session a = some x) :
    (s.session p.entry).isSome := h.entry a (by simp [hx])

theorem Inv.fail {a : α} {x : Session} (h : Inv p s) (hx : s.session a = some x)
    (hopen : x.phase ≠ .complete) (new : List (Report α))
    (hnew : ∀ r ∈ new, r.path = a ∧ Justified p r)
    (hb : ∃ b, p.Reaches a b ∧ p.Faulty (s.reports ++ new) b) :
    Inv p ({ s with reports := s.reports ++ new }.fail a) := by
  obtain ⟨text, hload, hg⟩ := h.good a x hx
  have hsession (b : α) : ({ s with reports := s.reports ++ new }.fail a).session b =
      if b = a then some { x with hadError := true } else s.session b := by
    rw [session_fail]
    change (if b = a then (s.session a).map _ else s.session b) = _
    rw [hx]
    rfl
  have hisSome (b : α) : (({ s with reports := s.reports ++ new }.fail a).session b).isSome =
      (s.session b).isSome := by
    rw [hsession]
    by_cases hba : b = a <;> simp [hba, hx]
  refine h.touch { session := hsession, reports := ⟨new, by simp, hnew⟩,
                   calls := ⟨[], by simp, by simp⟩, byName := fun unit b => ?_,
                   units := fun b _ _ => by simp, unitNames := fun unit hm => ?_,
                   entry := ?_ } hload ?_ ?_
  · rw [byName_fail, hisSome]
    exact h.byName unit b
  · rw [units_fail] at hm
    simpa only [hisSome] using h.unitNames unit hm
  · rw [hisSome]
    exact h.entry_isSome hx
  · refine hg.fail hopen (fun b hs => ?_) ⟨new, by simp⟩ (by simp) (by simp) (by simpa using hb)
    rwa [hisSome]
  · simp only [reports_fail, calls_fail]
    exact h.ordered.mono fun _ _ hp => hp.mono

theorem Inv.call {c : Call α} (h : Inv p s) (hc : (s.session c.path).isSome)
    (hd : ∀ b part, c ≠ .declarations b part) : Inv p (s.call c) := by
  have hcall {b : α} {part : Bool} (hm : .declarations b part ∈ (s.call c).calls) :
      .declarations b part ∈ s.calls := by
    rcases List.mem_append.mp hm with hm | hm
    · exact hm
    · exact absurd (List.mem_singleton.mp hm).symm (hd b part)
  refine { good := fun b y hb => ?_, entry := h.entry, byName := h.byName,
           unitNames := h.unitNames, reported := h.reported, called := fun d hm => ?_,
           ordered := h.ordered.append_singleton fun b part hb => absurd hb (hd b part) }
  · obtain ⟨text, hload, hg⟩ := h.good b y hb
    exact ⟨text, hload,
      { reached := hg.reached, phase := hg.phase, flagged := hg.flagged, blamed := hg.blamed,
        failed := hg.failed, first := fun hy unit hm => (hg.first hy unit hm).mono id (fun _ => id)
          ⟨[], by simp [State.call]⟩,
        later := fun hy unit hm => (hg.later hy unit hm).mono id (fun _ => id)
          ⟨[], by simp [State.call]⟩,
        bound := fun hy hn => List.mem_append_left _ (hg.bound hy hn),
        boundLater := fun hy hn => List.mem_append_left _ (hg.boundLater hy hn),
        unbound := fun hy part hm => hg.unbound hy part (hcall hm),
        unboundLater := fun hy hm => hg.unboundLater hy (hcall hm), unit := hg.unit }⟩
  · rcases List.mem_append.mp hm with hm | hm
    · exact h.called d hm
    · rwa [List.mem_singleton.mp hm]

end
end Tp2cc.Discovery
